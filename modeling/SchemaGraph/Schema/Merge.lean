import SchemaGraph.Schema.Basic

/- Laying one schema over another, and the schema that says nothing. -/
namespace SchemaGraph

def Table.overSorted (top base : Table Json) : Table Json :=
  top.foldl (fun t (key, value) => t.putSorted key value) base

namespace Keywords

/-- Every keyword of `top`, and those of `base` that `top` lacks. -/
def onto (top base : Keywords) : Keywords where
  reference := top.reference.or base.reference
  xml := top.xml.or base.xml
  description := top.description.or base.description
  type := top.type.or base.type
  format := top.format.or base.format
  default := top.default.or base.default
  enum := top.enum.or base.enum
  minimum := top.minimum.or base.minimum
  maximum := top.maximum.or base.maximum
  exclusiveMinimum := top.exclusiveMinimum.or base.exclusiveMinimum
  exclusiveMaximum := top.exclusiveMaximum.or base.exclusiveMaximum
  minItems := top.minItems.or base.minItems
  maxItems := top.maxItems.or base.maxItems
  pattern := top.pattern.or base.pattern
  minLength := top.minLength.or base.minLength
  maxLength := top.maxLength.or base.maxLength
  required := top.required.or base.required
  nullable := top.nullable.or base.nullable
  xNullable := top.xNullable.or base.xNullable
  whiteSpace := top.whiteSpace.or base.whiteSpace
  fractionDigits := top.fractionDigits.or base.fractionDigits
  totalDigits := top.totalDigits.or base.totalDigits
  discriminator := top.discriminator.or base.discriminator
  polymorphic := top.polymorphic.or base.polymorphic
  xsiType := top.xsiType.or base.xsiType
  xsiTypeXml := top.xsiTypeXml.or base.xsiTypeXml
  xsiTypeAbstract := top.xsiTypeAbstract.or base.xsiTypeAbstract
  uniqueName := top.uniqueName.or base.uniqueName
  group := top.group.or base.group
  anyType := top.anyType.or base.anyType
  complexRestriction := top.complexRestriction.or base.complexRestriction
  schemaNote := top.schemaNote.or base.schemaNote
  messages := top.messages.or base.messages
  sample := top.sample.or base.sample
  typeOf := top.typeOf.or base.typeOf
  forPart := top.forPart.or base.forPart
  ancestor := top.ancestor.or base.ancestor
  descendants := top.descendants.or base.descendants
  extra := top.extra.overSorted base.extra

def isEmpty (k : Keywords) : Bool :=
  k.reference.isNone && k.xml.isNone && k.description.isNone && k.type.isNone &&
  k.format.isNone && k.default.isNone && k.enum.isNone && k.minimum.isNone && k.maximum.isNone &&
  k.exclusiveMinimum.isNone && k.exclusiveMaximum.isNone && k.minItems.isNone &&
  k.maxItems.isNone && k.pattern.isNone && k.minLength.isNone && k.maxLength.isNone &&
  k.required.isNone && k.nullable.isNone && k.xNullable.isNone && k.whiteSpace.isNone &&
  k.fractionDigits.isNone && k.totalDigits.isNone && k.discriminator.isNone &&
  k.polymorphic.isNone && k.xsiType.isNone && k.xsiTypeXml.isNone && k.xsiTypeAbstract.isNone &&
  k.uniqueName.isNone && k.group.isNone && k.anyType.isNone && k.complexRestriction.isNone &&
  k.schemaNote.isNone && k.messages.isNone && k.sample.isNone && k.typeOf.isNone &&
  k.forPart.isNone && k.ancestor.isNone && k.descendants.isNone && k.extra.isEmpty

end Keywords

def Children.onto {α : Type} (top base : Children α) : Children α where
  not := top.not.or base.not
  items := top.items.or base.items
  properties := top.properties.or base.properties
  allOf := top.allOf.or base.allOf
  oneOf := top.oneOf.or base.oneOf
  anyOf := top.anyOf.or base.anyOf
  additional := top.additional.or base.additional

namespace Schema

/-- Whole keywords and whole children win, not their contents. -/
def onto (top base : Schema) : Schema where
  keywords := top.keywords.onto base.keywords
  children := top.children.onto base.children

/-- Says nothing: apart from the type `object` and an empty table of properties the node is
empty. -/
def isVacuous (s : Schema) : Bool :=
  let type := if s.isObject then none else s.keywords.type
  let properties := if s.children.properties.any List.isEmpty then none else s.children.properties
  Keywords.isEmpty { s.keywords with type } && Children.isEmpty { s.children with properties }

end Schema
end SchemaGraph
