import Facet.Lib.Descent
import Facet.Pretty.Output

/-!
# Type definitions as text

A shape is printed as the Rust definition of its type. One writer puts colors around the pieces;
the plain text of a definition is what is left without the escape codes.

The name of a container type is written with the names of its arguments, so that names recurse;
`none` is a recursion that has used up its depth.
-/

namespace Facet.Pretty

variable {ι : Type}

structure ShapeFormatConfig where
  showDocComments : Bool := false
  showThirdPartyAttrs : Bool := false
  /-- Whether to expand and print nested types. -/
  expandNestedTypes : Bool := false

inductive ShapeStyle
  | keyword
  | typeName
  | fieldName
  | primitive
  | punctuation
  | attribute
  | attributeContent
  | string
  | container
  | comment

/-- The text with the escape codes of a style around it. -/
abbrev Paint := ShapeStyle → String → String

/-- No escape codes. -/
def plain : Paint := fun _ text => text

@[simp]
theorem plain_apply (style : ShapeStyle) (text : String) : plain style text = text := rfl

def isPrimitiveType (id : String) : Bool :=
  ["u8", "u16", "u32", "u64", "u128", "usize", "i8", "i16", "i32", "i64", "i128", "isize", "f32",
    "f64", "bool", "char", "str", "&str", "String"].contains id

/-- What the name of a shape's type is made of. -/
inductive NameForm (ι : Type)
  | identifier
  | referenceToArray (t : ι) (n : ℕ)
  | list (t : ι)
  | array (t : ι) (n : ℕ)
  | map (k v : ι)
  | option (t : ι)

/-- The match at the head of `write_type_name`. -/
def nameForm (shapes : Shapes ι) (shape : Shape ι) : NameForm ι :=
  match shape.def with
  | .pointer _ =>
    match shape.ty with
    | .pointer (.reference target) =>
      match (shapes target).def with
      | .array t n => .referenceToArray t n
      | _ => .identifier
    | _ => .identifier
  | .list t => .list t
  | .array t n => .array t n
  | .map k v => .map k v
  | .option t => .option t
  | _ => .identifier

/-- The types whose names are part of the name. -/
def NameForm.arguments : NameForm ι → List ι
  | .identifier => []
  | .referenceToArray t _ | .list t | .array t _ | .option t => [t]
  | .map k v => [k, v]

section

variable (shapes : Shapes ι) (paint : Paint)

def writeTypeNameColored : ℕ → ι → Option String
  | 0, _ => none
  | depth + 1, s =>
    let shape := shapes s
    let p := paint .punctuation
    match nameForm shapes shape with
    | .referenceToArray t n => do
      let name ← writeTypeNameColored depth t
      return p "&[" ++ name ++ p "; " ++ paint .primitive (toString n) ++ p "]"
    | .list t => do
      let name ← writeTypeNameColored depth t
      return paint .container "Vec" ++ p "<" ++ name ++ p ">"
    | .array t n => do
      let name ← writeTypeNameColored depth t
      return p "[" ++ name ++ p "; " ++ paint .primitive (toString n) ++ p "]"
    | .map k v => do
      let key ← writeTypeNameColored depth k
      let value ← writeTypeNameColored depth v
      return paint .container shape.typeIdentifier ++ p "<" ++ key ++ p "," ++ " " ++ value ++ p ">"
    | .option t => do
      let name ← writeTypeNameColored depth t
      return paint .container "Option" ++ p "<" ++ name ++ p ">"
    | .identifier =>
      let id := shape.typeIdentifier
      -- a pointer's name is painted as a type even where it is that of a primitive
      match shape.def with
      | .pointer _ => some (paint .typeName id)
      | _ => some (paint (if isPrimitiveType id then .primitive else .typeName) id)

/-- The twin without colors. -/
def writeTypeName : ℕ → ι → Option String := writeTypeNameColored shapes plain

/-- The arguments of a type's name. -/
def nameArguments (s : ι) : List ι := (nameForm shapes (shapes s)).arguments

/-- Following the arguments of the name ends. -/
def NameEnds (s : ι) : Prop := Acc (flip (Descent.Refers (nameArguments shapes))) s

theorem isSome_writeTypeNameColored_succ (depth : ℕ) (s : ι) :
    (writeTypeNameColored shapes paint (depth + 1) s).isSome ↔
      ∀ t ∈ nameArguments shapes s, (writeTypeNameColored shapes paint depth t).isSome := by
  rw [writeTypeNameColored, nameArguments]
  cases hform : nameForm shapes (shapes s) with
  | identifier =>
    simp only [NameForm.arguments]
    cases (shapes s).def with
    | _ => simp
  | referenceToArray t n =>
    cases h : writeTypeNameColored shapes paint depth t <;> simp [NameForm.arguments, h]
  | list t => cases h : writeTypeNameColored shapes paint depth t <;> simp [NameForm.arguments, h]
  | array t n =>
    cases h : writeTypeNameColored shapes paint depth t <;> simp [NameForm.arguments, h]
  | map k v =>
    cases h : writeTypeNameColored shapes paint depth k <;>
      cases h' : writeTypeNameColored shapes paint depth v <;>
      simp [NameForm.arguments, h, h']
  | option t =>
    cases h : writeTypeNameColored shapes paint depth t <;> simp [NameForm.arguments, h]

theorem exists_writeTypeNameColored_iff (s : ι) :
    (∃ depth, (writeTypeNameColored shapes paint depth s).isSome) ↔ NameEnds shapes s :=
  Descent.exists_isSome_iff_acc (fun _ => rfl) (isSome_writeTypeNameColored_succ shapes paint) s

end

section

variable (config : ShapeFormatConfig) (paint : Paint)

def writeDocCommentsColored (doc : List String) (indent : String) : String :=
  String.join (doc.map fun line => indent ++ paint .comment ("///" ++ line) ++ "\n")

/-- The keys of the attributes, grouped by their namespaces in ascending order. -/
def byNamespace (attributes : List FieldAttribute) : List (String × List String) :=
  let namespaces := (attributes.filterMap FieldAttribute.ns).eraseDups.mergeSort (· ≤ ·)
  namespaces.map fun ns => (ns, (attributes.filter fun a => a.ns = some ns).map FieldAttribute.key)

/-- One line per namespace with all keys. -/
def writeThirdPartyAttrsColored (attributes : List FieldAttribute) (indent : String) : String :=
  let key (ns key : String) : String :=
    paint .attributeContent ns ++ paint .punctuation "::" ++ paint .attributeContent key
  String.join ((byNamespace attributes).map fun (ns, keys) =>
    indent ++ paint .attribute "#[" ++ paint .attributeContent "facet" ++ paint .attribute "("
      ++ (paint .punctuation ", ").intercalate (keys.map (key ns))
      ++ paint .attribute ")" ++ paint .attribute "]" ++ "\n")

def quoted (text : String) : String := "\"" ++ text ++ "\""

/-- The facet attributes of a type, one text each. -/
def facetAttrs (shape : Shape ι) : List String :=
  let content (text : String) : String := paint .attributeContent text
  let p := paint .punctuation
  let tag := match shape.tag, shape.content with
    | some tag, some c =>
      [content "tag" ++ p " = " ++ paint .string "\"" ++ paint .string tag ++ paint .string "\""
        ++ p ", " ++ content "content" ++ p " = " ++ paint .string (quoted c)]
    | some tag, none => [content "tag" ++ p " = " ++ paint .string (quoted tag)]
    | none, _ => []
  tag ++ (if shape.untagged then [content "untagged"] else [])
    ++ if shape.hasDenyUnknownFieldsAttr then [content "deny_unknown_fields"] else []

def writeFacetAttrsColored (shape : Shape ι) : String :=
  let attrs := facetAttrs paint shape
  if attrs.isEmpty then ""
  else
    paint .attribute "#[" ++ paint .attributeContent "facet" ++ paint .attribute "("
      ++ (paint .punctuation ", ").intercalate attrs ++ paint .attribute ")]" ++ "\n"

/-- The attributes of a field; those of the `validate` namespace are kept apart. -/
def allAttributes (field : Field ι) : List FieldAttribute :=
  field.attributes ++ field.validations.map fun v => ⟨some "validate", v.key⟩

/-- The comments and attributes above an item. -/
def writeItemHead (doc : List String) (attributes : List FieldAttribute) (indent : String) :
    String :=
  (if config.showDocComments then writeDocCommentsColored paint doc indent else "")
    ++ if config.showThirdPartyAttrs then writeThirdPartyAttrsColored paint attributes indent
      else ""

def reprStr : EnumRepr → Option String
  | .rust | .rustNPO => none
  | .u8 => some "u8"
  | .u16 => some "u16"
  | .u32 => some "u32"
  | .u64 => some "u64"
  | .usize => some "usize"
  | .i8 => some "i8"
  | .i16 => some "i16"
  | .i32 => some "i32"
  | .i64 => some "i64"
  | .isize => some "isize"

/-- The derive attribute, the representation of an enum, and the facet attributes. -/
def writeTypeHead (shape : Shape ι) (repr : Option String) : String :=
  let a := paint .attribute
  (if config.showDocComments then writeDocCommentsColored paint shape.doc "" else "")
    ++ a "#[" ++ paint .attributeContent "derive" ++ a "(" ++ paint .attributeContent "Facet"
    ++ a ")]" ++ "\n"
    ++ (repr.elim "" fun repr =>
      a "#[" ++ paint .attributeContent "repr" ++ a "(" ++ paint .primitive repr ++ a ")]" ++ "\n")
    ++ writeFacetAttrsColored paint shape
    ++ if config.showThirdPartyAttrs then writeThirdPartyAttrsColored paint shape.attributes ""
      else ""

variable (typeName : ι → String)

/-- The named fields, with a blank line between them. -/
def formatFieldsColored (fields : List (Field ι)) (indent : String) : String :=
  let p := paint .punctuation
  String.join (fields.zipIdx.map fun (field, i) =>
    (if i > 0 then "\n" else "")
      ++ writeItemHead config paint field.doc (allAttributes field) indent
      ++ indent ++ paint .fieldName field.name ++ p ":" ++ " " ++ typeName field.shape
      ++ p "," ++ "\n")

def formatTupleColored (fields : List (Field ι)) : String :=
  (paint .punctuation "," ++ " ").intercalate (fields.map fun field => typeName field.shape)

def formatStructColored (shape : Shape ι) (structType : StructType ι) : String :=
  let p := paint .punctuation
  let name := paint .typeName shape.typeIdentifier
  writeTypeHead config paint shape none ++ paint .keyword "struct" ++ " " ++ name
    ++ match structType.kind with
      | .struct =>
        " " ++ p "\x7b" ++ "\n" ++ formatFieldsColored config paint typeName structType.fields "    "
          ++ p "\x7d"
      | .tuple | .tupleStruct =>
        p "(" ++ formatTupleColored paint typeName structType.fields ++ p ")" ++ p ";"
      | .unit => p ";"

def formatVariantColored (variant : Variant ι) : String :=
  let p := paint .punctuation
  let name := "    " ++ paint .typeName variant.name
  match variant.data.kind with
  | .unit => name ++ p "," ++ "\n"
  | .tuple | .tupleStruct =>
    name ++ p "(" ++ formatTupleColored paint typeName variant.data.fields ++ p ")" ++ p "," ++ "\n"
  | .struct =>
    name ++ " " ++ p "\x7b" ++ "\n"
      ++ formatFieldsColored config paint typeName variant.data.fields "        "
      ++ "    " ++ p "\x7d" ++ p "," ++ "\n"

def formatEnumColored (shape : Shape ι) (enumType : EnumType ι) : String :=
  let p := paint .punctuation
  writeTypeHead config paint shape (reprStr enumType.enumRepr)
    ++ paint .keyword "enum" ++ " " ++ paint .typeName shape.typeIdentifier ++ " " ++ p "\x7b"
    ++ "\n"
    ++ String.join (enumType.variants.zipIdx.map fun (variant, i) =>
      (if i > 0 then "\n" else "")
        ++ writeItemHead config paint variant.doc variant.attributes "    "
        ++ formatVariantColored config paint typeName variant)
    ++ p "\x7d"

end

/-- What is left of a text without its ANSI escape codes. -/
def stripAnsi : Bool → List Char → List Char
  | _, [] => []
  -- within an escape sequence, up to its letter
  | true, c :: chars => stripAnsi (!c.isAlpha) chars
  | false, c :: chars =>
    if c = Char.ofNat 27 then
      match chars with
      | [] => []
      | c' :: chars => if c' = '[' then stripAnsi true chars else stripAnsi false (c' :: chars)
    else c :: stripAnsi false chars
termination_by _ chars => chars.length

end Facet.Pretty
