import Mathlib.Data.List.Basic
import SchemaGraph.Pointer

/- Pointers as texts. Escaping is two replacements throughout the text, and so is reading a segment
   back, each in an order that matters. What is written for a list of segments is read as this list,
   but for the one empty segment; and segments are read at the slashes, the special characters in them
   one by one. -/
namespace SchemaGraph.Pointer

/-- Every occurrence of `old`, looked for from the left, gives way to `new`; `old` is not empty. -/
def replaceChars (old new : List Char) : List Char → List Char
  | [] => []
  | c :: rest =>
    if old.isPrefixOf (c :: rest) then new ++ replaceChars old new (rest.drop (old.length - 1))
    else c :: replaceChars old new rest
termination_by cs => cs.length
decreasing_by all_goals simp only [List.length_drop, List.length_cons]; omega

def replaceAll (old new text : String) : String :=
  String.ofList (replaceChars old.toList new.toList text.toList)

section
variable {a b c : Char} (new rest : List Char)

theorem replaceChars_nil (old new : List Char) : replaceChars old new [] = [] := by
  rw [replaceChars]

theorem replaceChars_one : replaceChars [a] new (c :: rest) =
    if c = a then new ++ replaceChars [a] new rest else c :: replaceChars [a] new rest := by
  rw [replaceChars]
  by_cases same : c = a
  · simp [same]
  · simp [same, Ne.symm same]

theorem replaceChars_two : replaceChars [a, b] new (a :: b :: rest) =
    new ++ replaceChars [a, b] new rest := by
  rw [replaceChars]
  simp

/-- A character stays unless the two begin with it. -/
theorem replaceChars_two_cons (other : c = a → rest.head? ≠ some b) :
    replaceChars [a, b] new (c :: rest) = c :: replaceChars [a, b] new rest := by
  rw [replaceChars, if_neg]
  cases rest with
  | nil => simp
  | cons d rest =>
    simp only [List.isPrefixOf_cons_cons, List.isPrefixOf_nil_left, Bool.and_true, Bool.and_eq_true,
      beq_iff_eq, not_and]
    exact fun first second => other first.symm (by rw [List.head?_cons, second])

/-- The text begins as before, or with what has replaced the two. -/
theorem head?_replaceChars_two {d : Char} (cs : List Char) :
    (replaceChars [a, b] [d] cs).head? = cs.head? ∨
      (replaceChars [a, b] [d] cs).head? = some d := by
  cases cs with
  | nil => exact Or.inl (by rw [replaceChars_nil])
  | cons c rest =>
    rw [replaceChars]
    split
    · exact Or.inr rfl
    · exact Or.inl rfl

end

theorem escapeChars_eq_replaceChars (cs : List Char) : escapeChars cs =
    replaceChars ['/'] ['~', '1'] (replaceChars ['~'] ['~', '0'] cs) := by
  induction cs with
  | nil => simp [escapeChars, replaceChars_nil]
  | cons c rest ih =>
    rw [escapeChars, replaceChars_one]
    by_cases tilde : c = '~'
    · simp [tilde, replaceChars_one, ih]
    · by_cases slash : c = '/'
      · simp [slash, replaceChars_one, ih]
      · simp [tilde, slash, replaceChars_one, ih]

/-- Replacing "~1" first brings no '~' before a '0' that did not stand there. -/
theorem unescapeChars_eq_replaceChars (cs : List Char) : unescapeChars cs =
    replaceChars ['~', '0'] ['~'] (replaceChars ['~', '1'] ['/'] cs) := by
  fun_induction unescapeChars cs with
  | case1 rest ih =>
    have inner : replaceChars ['~', '1'] ['/'] ('~' :: '0' :: rest) =
        '~' :: '0' :: replaceChars ['~', '1'] ['/'] rest := by
      rw [replaceChars_two_cons _ _ (by simp), replaceChars_two_cons _ _ (by simp)]
    rw [inner, replaceChars_two, ih, List.singleton_append]
  | case2 rest ih =>
    rw [replaceChars_two, List.singleton_append, replaceChars_two_cons _ _ (by simp), ih]
  | case3 c rest noZero noOne ih =>
    have first : c = '~' → rest.head? ≠ some '1' := by
      intro tilde one
      obtain ⟨more, rfl⟩ := List.head?_eq_some_iff.mp one
      exact noOne more tilde rfl
    have second : c = '~' → (replaceChars ['~', '1'] ['/'] rest).head? ≠ some '0' := by
      intro tilde zero
      rcases head?_replaceChars_two (a := '~') (b := '1') (d := '/') rest with same | slash
      · obtain ⟨more, rfl⟩ := List.head?_eq_some_iff.mp (same.symm.trans zero)
        exact noZero more tilde rfl
      · cases slash.symm.trans zero
    rw [replaceChars_two_cons _ _ first, replaceChars_two_cons _ _ second, ih]
  | case4 => rw [replaceChars_nil, replaceChars_nil]

theorem unescape_escape (segment : String) : unescape (escape segment) = segment := by
  rw [unescape, escape, String.toList_ofList, unescapeChars_escapeChars, String.ofList_toList]

/-- A pointer is read as the segments that it was written for, whatever characters they have, unless
there is only an empty one. A segment is escaped by two replacements, the '~' first, and read by two,
the '~' last, which undo them. -/
theorem segments_read_back :
    (∀ segments, split (render segments) = segments ↔ segments ≠ [""]) ∧
    (∀ segment, unescape (escape segment) = segment) ∧
    ∀ text, escape text = replaceAll "/" "~1" (replaceAll "~" "~0" text) ∧
      unescape text = replaceAll "~0" "~" (replaceAll "~1" "/" text) := by
  refine ⟨fun segments => ⟨?_, split_render_of_ne⟩, unescape_escape, fun text => ⟨?_, ?_⟩⟩
  · rintro same rfl
    cases same
  · simp [escape, replaceAll, escapeChars_eq_replaceChars]
  · simp [unescape, replaceAll, unescapeChars_eq_replaceChars]

/-- In the other order, what was the text "~1" is read as a slash. -/
example : unescape "~01" = "~1" ∧ replaceAll "~1" "/" (replaceAll "~0" "~" "~01") = "/" := by cbv

/-- The segments of a text whose leading '#' and '/' are gone. -/
def segmentsOf (cs : List Char) : List String :=
  (parts cs).map fun part => String.ofList (unescapeChars part)

/-- The empty text apart, a pointer has the segments of what follows its lead. -/
theorem split_eq_iff_segmentsOf {raw : String} {cs : List Char}
    (written : raw.toList = '#' :: '/' :: cs) {segments : List String} (nonempty : segments ≠ [])
    (filled : segments ≠ [""]) : split raw = segments ↔ segmentsOf cs = segments := by
  have body : dropHead '/' (dropHead '#' raw.toList) = cs := by
    rw [written]
    simp [dropHead]
  rw [split, body]
  split
  · rename_i empty
    subst empty
    exact ⟨fun same => absurd same.symm nonempty, fun same => absurd same.symm filled⟩
  · rfl

theorem unescapeChars_of_no_tilde {cs : List Char} (plain : '~' ∉ cs) : unescapeChars cs = cs := by
  induction cs with
  | nil => rfl
  | cons c rest ih =>
    obtain ⟨first, later⟩ := not_or.mp fun member => plain (List.mem_cons.mpr member)
    rw [unescapeChars_cons (Ne.symm first), ih later]

/-- A '~' stays, or is read as a '~' or a '/'. -/
theorem special_mem_unescapeChars {cs : List Char} (tilde : '~' ∈ cs) :
    '~' ∈ unescapeChars cs ∨ '/' ∈ unescapeChars cs := by
  fun_induction unescapeChars cs with
  | case1 rest ih => exact Or.inl List.mem_cons_self
  | case2 rest ih => exact Or.inr List.mem_cons_self
  | case3 c rest noZero noOne ih =>
    rcases List.mem_cons.mp tilde with rfl | later
    · exact Or.inl List.mem_cons_self
    · exact (ih later).imp (List.mem_cons_of_mem _) (List.mem_cons_of_mem _)
  | case4 => cases tilde

/-- A word without special characters is written in one way only. -/
theorem ofList_unescapeChars_eq_iff {word : String} (plain : '~' ∉ word.toList ∧ '/' ∉ word.toList)
    (cs : List Char) : String.ofList (unescapeChars cs) = word ↔ cs = word.toList := by
  constructor
  · intro same
    have read : unescapeChars cs = word.toList := by rw [← same, String.toList_ofList]
    by_cases tilde : '~' ∈ cs
    · have special := special_mem_unescapeChars tilde
      rw [read] at special
      exact absurd special (not_or.mpr plain)
    · rw [← read, unescapeChars_of_no_tilde tilde]
  · rintro rfl
    rw [unescapeChars_of_no_tilde plain.1, String.ofList_toList]

/-- A part that is not the last one ends at the first slash. -/
theorem exists_of_parts_eq_cons {cs part next : List Char} {more : List (List Char)}
    (read : parts cs = part :: next :: more) :
    ∃ rest, cs = part ++ '/' :: rest ∧ parts rest = next :: more := by
  induction cs generalizing part with
  | nil => cases read
  | cons c rest ih =>
    rw [parts] at read
    split at read
    · rename_i slash
      obtain ⟨rfl, later⟩ := List.cons.inj read
      exact ⟨rest, by rw [slash, List.nil_append], later⟩
    · split at read
      · cases read
      · rename_i first others split
        obtain ⟨rfl, rfl⟩ := List.cons.inj read
        obtain ⟨rest', rfl, later⟩ := ih split
        exact ⟨rest', rfl, later⟩

/-- There is a first segment, and it is empty only where nothing stands before the first slash. -/
theorem exists_segmentsOf_eq_cons (cs : List Char) : ∃ name tail,
    segmentsOf cs = name :: tail ∧ (name = "" ↔ cs = [] ∨ cs.head? = some '/') := by
  have empty (part : List Char) : String.ofList (unescapeChars part) = "" ↔ part = [] :=
    ofList_unescapeChars_eq_iff ⟨List.not_mem_nil, List.not_mem_nil⟩ part
  cases cs with
  | nil => exact ⟨_, _, rfl, by simp [empty]⟩
  | cons c rest =>
    rw [segmentsOf, parts]
    split
    · rename_i slash
      exact ⟨_, _, rfl, by simp [empty, slash]⟩
    · rename_i noSlash
      split
      · exact ⟨_, _, rfl, by simp [empty, noSlash]⟩
      · exact ⟨_, _, rfl, by simp [empty, noSlash]⟩

/-- The segments begin with the word exactly if the text begins with it and goes on after a slash. -/
theorem segmentsOf_eq_word_cons {word : String} (plain : '~' ∉ word.toList ∧ '/' ∉ word.toList)
    (cs : List Char) (next : String) (tail : List String) :
    segmentsOf cs = word :: next :: tail ↔
      ∃ rest, cs = word.toList ++ '/' :: rest ∧ segmentsOf rest = next :: tail := by
  constructor
  · intro read
    obtain ⟨first, more, split, here, later⟩ := List.map_eq_cons_iff.mp read
    obtain ⟨second, others, rfl, _, _⟩ := List.map_eq_cons_iff.mp later
    obtain ⟨rest, rfl, split'⟩ := exists_of_parts_eq_cons split
    refine ⟨rest, ?_, ?_⟩
    · rw [(ofList_unescapeChars_eq_iff plain first).mp here]
    · rw [segmentsOf, split', later]
  · rintro ⟨rest, rfl, later⟩
    rw [segmentsOf, parts_append_slash plain.2, List.map_cons, ← segmentsOf, later,
      (ofList_unescapeChars_eq_iff plain _).mpr rfl]

end SchemaGraph.Pointer
