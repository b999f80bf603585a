/- JSON pointers: lists of segments, written after '#' with '/' in front of each segment. In a
   written segment '~' stands as "~0" and '/' as "~1". -/
namespace SchemaGraph.Pointer

def escapeChars : List Char → List Char
  | [] => []
  | c :: rest =>
    if c = '~' then '~' :: '0' :: escapeChars rest
    else if c = '/' then '~' :: '1' :: escapeChars rest
    else c :: escapeChars rest

/-- A '~' that starts neither "~0" nor "~1" stands for itself. -/
def unescapeChars : List Char → List Char
  | '~' :: '0' :: rest => '~' :: unescapeChars rest
  | '~' :: '1' :: rest => '/' :: unescapeChars rest
  | c :: rest => c :: unescapeChars rest
  | [] => []

theorem unescapeChars_cons {c : Char} (h : c ≠ '~') (rest : List Char) :
    unescapeChars (c :: rest) = c :: unescapeChars rest := by
  rw [unescapeChars] <;> simp [h]

theorem unescapeChars_escapeChars (cs : List Char) : unescapeChars (escapeChars cs) = cs := by
  induction cs with
  | nil => rfl
  | cons c rest ih =>
    by_cases tilde : c = '~'
    · simp [escapeChars, unescapeChars, tilde, ih]
    · by_cases slash : c = '/'
      · simp [escapeChars, unescapeChars, slash, ih]
      · simp [escapeChars, unescapeChars_cons tilde, tilde, slash, ih]

def escape (segment : String) : String := String.ofList (escapeChars segment.toList)

def unescape (segment : String) : String := String.ofList (unescapeChars segment.toList)

def render (segments : List String) : String :=
  String.ofList ('#' :: segments.flatMap fun s => '/' :: escapeChars s.toList)

/-- The parts between the slashes; there is always one more part than slashes. -/
def parts : List Char → List (List Char)
  | [] => [[]]
  | c :: rest =>
    if c = '/' then [] :: parts rest
    else match parts rest with
      | [] => [[c]]
      | part :: others => (c :: part) :: others

def dropHead (c : Char) : List Char → List Char
  | [] => []
  | d :: rest => if d = c then rest else d :: rest

/-- Accepts any text: a '#' and then a '/' in front are dropped, and nothing is left of the empty
text. -/
def split (path : String) : List String :=
  let body := dropHead '/' (dropHead '#' path.toList)
  if body = [] then [] else (parts body).map fun part => String.ofList (unescapeChars part)

theorem slash_not_mem_escapeChars (cs : List Char) : '/' ∉ escapeChars cs := by
  induction cs with
  | nil => simp [escapeChars]
  | cons c rest ih =>
    by_cases tilde : c = '~'
    · simp [escapeChars, tilde, ih]
    · by_cases slash : c = '/'
      · simp [escapeChars, slash, ih]
      · simp [escapeChars, tilde, slash, ih, Ne.symm slash]

theorem parts_of_no_slash {cs : List Char} (h : '/' ∉ cs) : parts cs = [cs] := by
  induction cs with
  | nil => rfl
  | cons c rest ih =>
    simp only [List.mem_cons, not_or] at h
    simp [parts, ih h.2, Ne.symm h.1]

theorem parts_append_slash {cs : List Char} (h : '/' ∉ cs) (rest : List Char) :
    parts (cs ++ '/' :: rest) = cs :: parts rest := by
  induction cs with
  | nil => simp [parts]
  | cons c cs ih =>
    simp only [List.mem_cons, not_or] at h
    simp [parts, ih h.2, Ne.symm h.1]

theorem parts_escaped (segment : String) (rest : List String) :
    parts (escapeChars segment.toList ++ rest.flatMap fun s => '/' :: escapeChars s.toList) =
      (segment :: rest).map fun s => escapeChars s.toList := by
  induction rest generalizing segment with
  | nil => simp [parts_of_no_slash (slash_not_mem_escapeChars _)]
  | cons next rest ih =>
    rw [List.flatMap_cons, List.cons_append,
      parts_append_slash (slash_not_mem_escapeChars _), ih next]
    rfl

/-- The one empty segment is written like no segment at all. -/
theorem split_render_of_ne {segments : List String} (h : segments ≠ [""]) :
    split (render segments) = segments := by
  cases segments with
  | nil => simp [split, render, dropHead]
  | cons segment rest =>
    have body : dropHead '/' (dropHead '#' (render (segment :: rest)).toList) =
        escapeChars segment.toList ++ rest.flatMap fun s => '/' :: escapeChars s.toList := by
      simp [render, dropHead]
    have filled : escapeChars segment.toList ++
        rest.flatMap (fun s => '/' :: escapeChars s.toList) ≠ [] := by
      intro empty
      obtain ⟨first, later⟩ := List.append_eq_nil_iff.mp empty
      have noLater : rest = [] := by
        cases rest with
        | nil => rfl
        | cons next rest => simp at later
      have noFirst : segment.toList = [] := by
        rw [← unescapeChars_escapeChars segment.toList, first]
        rfl
      exact h (by rw [noLater, String.toList_eq_nil_iff.mp noFirst])
    rw [split, body, if_neg filled, parts_escaped, List.map_map]
    simp [Function.comp_def, unescapeChars_escapeChars]

end SchemaGraph.Pointer
