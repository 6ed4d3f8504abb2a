import Facet.Lib.Utf8
import Facet.Pretty.Printer
import Facet.Pretty.ShapeText

/-!
# Type definitions with spans

The writer that tracks spans writes plain text and records, under the paths of the fields and
variants, where in the text their names and types stand.
-/

namespace Facet.Pretty.ShapeSpans

open Utf8

variable {ι : Type}

structure SpanTrackingContext where
  output : String := ""
  spans : Path → Option FieldSpan := fun _ => none
  typeNameSpan : Option (ℕ × ℕ) := none
  typeSpan : Option (ℕ × ℕ) := none
  typeEndSpan : Option (ℕ × ℕ) := none
  currentType : Option String := none

/-- A step of the writer. -/
abbrev Tracker (α : Type) := StateM SpanTrackingContext α

def write (text : String) : Tracker Unit :=
  modify fun ctx => { ctx with output := ctx.output ++ text }

def len : Tracker ℕ := return (← get).output.utf8ByteSize

def recordFieldSpan (path : Path) (key value : ℕ × ℕ) : Tracker Unit :=
  modify fun ctx => { ctx with spans := Function.update ctx.spans path (some ⟨key, value⟩) }

/-- Runs a step and returns the positions around what it wrote. -/
def spanOf (step : Tracker Unit) : Tracker (ℕ × ℕ) := do
  let start ← len
  step
  return (start, ← len)

/-- Runs a step for each item, with the given text between. -/
def forEach {α : Type} (between : String) (step : α → Tracker Unit) : List α → Tracker Unit
  | [] => pure ()
  | [x] => step x
  | x :: xs => do
    step x
    write between
    forEach between step xs

def setTypeNameSpan (span : ℕ × ℕ) : Tracker Unit :=
  modify fun ctx => { ctx with typeNameSpan := some span }

def setTypeEndSpan (span : ℕ × ℕ) : Tracker Unit :=
  modify fun ctx => { ctx with typeEndSpan := some span }

def setTypeSpan (span : ℕ × ℕ) : Tracker Unit :=
  modify fun ctx => { ctx with typeSpan := some span }

def setCurrentType (currentType : Option String) : Tracker Unit :=
  modify fun ctx => { ctx with currentType := currentType }

section

variable (config : ShapeFormatConfig) (typeName : ι → String)

/-- The named fields, each recorded under its path. -/
def formatFieldWithSpans (above : Path) (indent : String) (field : Field ι) : Tracker Unit := do
  write (writeItemHead config plain field.doc (allAttributes field) indent)
  write indent
  let key ← spanOf (write field.name)
  write ": "
  let value ← spanOf (write (typeName field.shape))
  recordFieldSpan (above ++ [.field field.name]) key value
  write ",\n"

/-- A field of a tuple: key and value span are the same, and a field without a name is skipped. -/
def formatTupleFieldWithSpans (above : Path) (field : Field ι) : Tracker Unit := do
  let span ← spanOf (write (typeName field.shape))
  if field.name.isEmpty then pure ()
  else recordFieldSpan (above ++ [.field field.name]) span span

def formatStructBodyWithSpans (shape : Shape ι) (structType : StructType ι) : Tracker Unit := do
  write (writeTypeHead config plain shape none)
  write "struct "
  let name ← spanOf (write shape.typeIdentifier)
  setTypeNameSpan name
  match structType.kind with
  | .struct =>
    write " \x7b\n"
    forEach "" (formatFieldWithSpans config typeName [] "    ") structType.fields
    let typeEnd ← spanOf (write "\x7d")
    setTypeEndSpan typeEnd
  | .tuple | .tupleStruct =>
    write "("
    forEach ", " (formatTupleFieldWithSpans typeName []) structType.fields
    let typeEnd ← spanOf (write ");")
    setTypeEndSpan typeEnd
  | .unit =>
    let typeEnd ← spanOf (write ";")
    setTypeEndSpan typeEnd

/-- A variant's name and data: the name is the key, the contents are the value. -/
def formatVariantDataWithSpans (variant : Variant ι) : Tracker Unit :=
  let path := [PathSegment.variant variant.name]
  match variant.data.kind with
  | .unit => do
    let name ← spanOf (write variant.name)
    recordFieldSpan path name name
  | .tuple | .tupleStruct => do
    let name ← spanOf (write variant.name)
    write "("
    let tuple ← spanOf do
      forEach ", " (formatTupleFieldWithSpans typeName path) variant.data.fields
      write ")"
    recordFieldSpan path name tuple
  | .struct => do
    let name ← spanOf (write variant.name)
    write " \x7b\n"
    let body ← spanOf do
      forEach "" (formatFieldWithSpans config typeName path "        ") variant.data.fields
      write "    \x7d"
    recordFieldSpan path name body

def formatVariantWithSpans (variant : Variant ι) : Tracker Unit := do
  write (writeItemHead config plain variant.doc variant.attributes "    ")
  write "    "
  formatVariantDataWithSpans config typeName variant
  write ",\n"

def formatEnumBodyWithSpans (shape : Shape ι) (enumType : EnumType ι) : Tracker Unit := do
  write (writeTypeHead config plain shape (reprStr enumType.enumRepr))
  write "enum "
  let name ← spanOf (write shape.typeIdentifier)
  setTypeNameSpan name
  write " \x7b\n"
  forEach "" (formatVariantWithSpans config typeName) enumType.variants
  let typeEnd ← spanOf (write "\x7d")
  setTypeEndSpan typeEnd

/-- The whole definition is recorded under the empty path. -/
def formatDefinitionWithSpans (body : Tracker Unit) : Tracker Unit := do
  let type ← spanOf body
  setTypeSpan type
  recordFieldSpan [] type type

def formatStructWithSpans (shape : Shape ι) (structType : StructType ι) : Tracker Unit :=
  formatDefinitionWithSpans (formatStructBodyWithSpans config typeName shape structType)

def formatEnumWithSpans (shape : Shape ι) (enumType : EnumType ι) : Tracker Unit :=
  formatDefinitionWithSpans (formatEnumBodyWithSpans config typeName shape enumType)

end

section

variable (config : ShapeFormatConfig) (paint : Paint) (gap : String) (typeName : ι → String)

/-- The text of a named field. Where it is not plain, the pieces are painted. -/
def fieldText (indent : String) (field : Field ι) : String :=
  writeItemHead config paint field.doc (allAttributes field) indent ++ indent
    ++ (paint .fieldName field.name ++ (paint .punctuation ":" ++ " ") ++ typeName field.shape)
    ++ (paint .punctuation "," ++ "\n")

/-- The named fields, with a gap between them. -/
def fieldsText (indent : String) (fields : List (Field ι)) : String :=
  gap.intercalate (fields.map (fieldText config paint typeName indent))

def tupleText (fields : List (Field ι)) : String :=
  (paint .punctuation "," ++ " ").intercalate (fields.map fun field => typeName field.shape)

def opening : String := " " ++ paint .punctuation "\x7b" ++ "\n"

def structText (shape : Shape ι) (structType : StructType ι) : String :=
  let p := paint .punctuation
  writeTypeHead config paint shape none ++ (paint .keyword "struct" ++ " ")
    ++ paint .typeName shape.typeIdentifier
    ++ match structType.kind with
      | .struct =>
        opening paint ++ fieldsText config paint gap typeName "    " structType.fields ++ p "\x7d"
      | .tuple | .tupleStruct =>
        p "(" ++ tupleText paint typeName structType.fields ++ (p ")" ++ p ";")
      | .unit => p ";"

/-- What stands behind a variant's name and the opening delimiter, or the name itself. -/
def variantContents (variant : Variant ι) : String :=
  let p := paint .punctuation
  match variant.data.kind with
  | .unit => paint .typeName variant.name
  | .tuple | .tupleStruct => tupleText paint typeName variant.data.fields ++ p ")"
  | .struct =>
    fieldsText config paint gap typeName "        " variant.data.fields ++ ("    " ++ p "\x7d")

def variantDataText (variant : Variant ι) : String :=
  let name := paint .typeName variant.name
  let contents := variantContents config paint gap typeName variant
  match variant.data.kind with
  | .unit => name
  | .tuple | .tupleStruct => name ++ paint .punctuation "(" ++ contents
  | .struct => name ++ opening paint ++ contents

def variantText (variant : Variant ι) : String :=
  writeItemHead config paint variant.doc variant.attributes "    " ++ "    "
    ++ variantDataText config paint gap typeName variant ++ (paint .punctuation "," ++ "\n")

def enumText (shape : Shape ι) (enumType : EnumType ι) : String :=
  writeTypeHead config paint shape (reprStr enumType.enumRepr) ++ (paint .keyword "enum" ++ " ")
    ++ paint .typeName shape.typeIdentifier ++ opening paint
    ++ gap.intercalate (enumType.variants.map (variantText config paint gap typeName))
    ++ paint .punctuation "\x7d"

theorem opening_plain : opening plain = " \x7b\n" := rfl

theorem fieldText_plain (indent : String) (field : Field ι) :
    fieldText config plain typeName indent field =
      writeItemHead config plain field.doc (allAttributes field) indent ++ indent
        ++ (field.name ++ ": " ++ typeName field.shape) ++ ",\n" := rfl

theorem variantText_plain (variant : Variant ι) :
    variantText config plain gap typeName variant =
      writeItemHead config plain variant.doc variant.attributes "    " ++ "    "
        ++ variantDataText config plain gap typeName variant ++ ",\n" := rfl

theorem enumText_plain (shape : Shape ι) (enumType : EnumType ι) :
    enumText config plain gap typeName shape enumType =
      writeTypeHead config plain shape (reprStr enumType.enumRepr) ++ "enum "
        ++ shape.typeIdentifier ++ " \x7b\n"
        ++ gap.intercalate (enumType.variants.map (variantText config plain gap typeName))
        ++ "\x7d" := rfl

end

/-- The texts of keys and values by their paths. -/
abbrev Entries := Path → String → String → Prop

/-- The positions are around the given text, which was written from `start` on. -/
structure Covers (start : ℕ) (output : String) (span : ℕ × ℕ) (text : String) : Prop where
  start_le : start ≤ span.1
  le_end : span.2 ≤ output.utf8ByteSize
  slice_eq : slice output.toList span.1 span.2 = some text.toList

/-- Between the two states the text was written, and the entries were recorded and no others. -/
structure Writes (text : String) (E : Entries) (ctx ctx' : SpanTrackingContext) : Prop where
  output : ctx'.output = ctx.output ++ text
  spans : ∀ p, (ctx'.spans p = ctx.spans p ∧ ∀ k v, ¬ E p k v) ∨
    ∃ span k v, ctx'.spans p = some span ∧ E p k v ∧
      Covers ctx.output.utf8ByteSize ctx'.output span.key k ∧
      Covers ctx.output.utf8ByteSize ctx'.output span.value v

/-- The step does so in every state. -/
def AlwaysWrites (text : String) (E : Entries) (step : Tracker Unit) : Prop :=
  ∀ ctx, Writes text E ctx (step.run ctx).2

/-- No entries. -/
def noEntries : Entries := fun _ _ _ => False

/-- Both sorts of entries. -/
def Entries.or (E E' : Entries) : Entries := fun p k v => E p k v ∨ E' p k v

theorem Covers.append {start start' : ℕ} {output more text : String} {span : ℕ × ℕ}
    (h : Covers start output span text) (hle : start' ≤ start) :
    Covers start' (output ++ more) span text where
  start_le := le_trans hle h.start_le
  le_end := by
    have hend := h.le_end
    rw [String.utf8ByteSize_append]
    omega
  slice_eq := by
    rw [String.toList_append]
    exact slice_append_right _ h.slice_eq

theorem Covers.start_le_end {start : ℕ} {output text : String} {span : ℕ × ℕ}
    (h : Covers start output span text) : span.1 ≤ span.2 := by
  obtain ⟨before, after, -, hstart, hend⟩ := slice_eq_some_iff.mp h.slice_eq
  rw [← hstart, ← hend, byteLen_append]
  omega

theorem covers_written (output text more : String) :
    Covers output.utf8ByteSize (output ++ text ++ more)
      (output.utf8ByteSize, (output ++ text).utf8ByteSize) text where
  start_le := le_refl _
  le_end := by
    simp only [String.utf8ByteSize_append]
    omega
  slice_eq := by
    rw [String.toList_append, String.toList_append, ← byteLen_toList, ← byteLen_toList,
      String.toList_append]
    exact slice_append _ _ _

theorem Writes.congr {text text' : String} {E E' : Entries} {ctx ctx' : SpanTrackingContext}
    (h : Writes text E ctx ctx') (htext : text = text') (hE : ∀ p k v, E p k v ↔ E' p k v) :
    Writes text' E' ctx ctx' where
  output := htext ▸ h.output
  spans := by
    intro p
    rcases h.spans p with ⟨hsame, hnone⟩ | ⟨span, k, v, hsome, hkv, hkey, hvalue⟩
    · exact .inl ⟨hsame, fun k v hkv => hnone k v ((hE p k v).mpr hkv)⟩
    · exact .inr ⟨span, k, v, hsome, (hE p k v).mp hkv, hkey, hvalue⟩

theorem Writes.trans {text text' : String} {E E' : Entries} {ctx ctx' ctx'' : SpanTrackingContext}
    (h : Writes text E ctx ctx') (h' : Writes text' E' ctx' ctx'') :
    Writes (text ++ text') (E.or E') ctx ctx'' where
  output := by rw [h'.output, h.output, String.append_assoc]
  spans := by
    intro p
    have hle : ctx.output.utf8ByteSize ≤ ctx'.output.utf8ByteSize := by
      rw [h.output, String.utf8ByteSize_append]
      omega
    rcases h'.spans p with ⟨hsame, hnone⟩ | ⟨span, k, v, hsome, hkv, hkey, hvalue⟩
    · rw [hsame]
      rcases h.spans p with ⟨hsame', hnone'⟩ | ⟨span, k, v, hsome, hkv, hkey, hvalue⟩
      · refine .inl ⟨hsame', ?_⟩
        rintro k v (hkv | hkv)
        · exact hnone' k v hkv
        · exact hnone k v hkv
      · refine .inr ⟨span, k, v, hsome, .inl hkv, ?_, ?_⟩
        · rw [h'.output]
          exact hkey.append (le_refl _)
        · rw [h'.output]
          exact hvalue.append (le_refl _)
    · have hcovers {span : ℕ × ℕ} {t : String}
          (hc : Covers ctx'.output.utf8ByteSize ctx''.output span t) :
          Covers ctx.output.utf8ByteSize ctx''.output span t :=
        ⟨le_trans hle hc.start_le, hc.le_end, hc.slice_eq⟩
      exact .inr ⟨span, k, v, hsome, .inr hkv, hcovers hkey, hcovers hvalue⟩

theorem alwaysWrites_write (text : String) : AlwaysWrites text noEntries (write text) := by
  intro ctx
  exact ⟨rfl, fun p => .inl ⟨rfl, fun k v h => h⟩⟩

theorem AlwaysWrites.congr {text text' : String} {E E' : Entries} {step : Tracker Unit}
    (h : AlwaysWrites text E step) (htext : text = text') (hE : ∀ p k v, E p k v ↔ E' p k v) :
    AlwaysWrites text' E' step := fun ctx => (h ctx).congr htext hE

theorem AlwaysWrites.seq {text text' : String} {E E' : Entries} {step step' : Tracker Unit}
    (h : AlwaysWrites text E step) (h' : AlwaysWrites text' E' step') :
    AlwaysWrites (text ++ text') (E.or E') (step >>= fun _ => step') := by
  intro ctx
  exact (h ctx).trans (h' _)

/-- One entry. -/
def Entries.single (path : Path) (key value : String) : Entries :=
  fun p k v => p = path ∧ k = key ∧ v = value

theorem AlwaysWrites.recorded {text : String} {E : Entries} {step : Tracker Unit}
    (h : AlwaysWrites text E step) (path : Path) :
    AlwaysWrites text (E.or (.single path text text))
      (spanOf step >>= fun span => recordFieldSpan path span span) := by
  intro ctx
  have hstep := h ctx
  refine ⟨hstep.output, ?_⟩
  intro p
  by_cases hp : p = path
  · subst hp
    have hcovers := covers_written ctx.output text ""
    rw [String.append_empty, ← hstep.output] at hcovers
    exact .inr ⟨_, text, text, Function.update_self .., .inr ⟨rfl, rfl, rfl⟩, hcovers, hcovers⟩
  · have hother (spans : Path → Option FieldSpan) (x : Option FieldSpan) :
        Function.update spans path x p = spans p := Function.update_of_ne hp ..
    rcases hstep.spans p with ⟨hsame, hnone⟩ | ⟨span, k, v, hsome, hkv, hkey, hvalue⟩
    · refine .inl ⟨(hother _ _).trans hsame, ?_⟩
      rintro k v (hkv | ⟨heq, -, -⟩)
      · exact hnone k v hkv
      · exact hp heq
    · exact .inr ⟨span, k, v, (hother _ _).trans hsome, .inl hkv, hkey, hvalue⟩

theorem AlwaysWrites.keyed {text : String} {E : Entries} {step : Tracker Unit}
    (h : AlwaysWrites text E step) (path : Path) (key middle : String) :
    AlwaysWrites (key ++ middle ++ text) (E.or (.single path key text)) (do
      let keySpan ← spanOf (write key)
      write middle
      let value ← spanOf step
      recordFieldSpan path keySpan value) := by
  intro ctx
  let before : SpanTrackingContext := { ctx with output := ctx.output ++ key ++ middle }
  have hstep := h before
  have houtput : (step.run before).2.output = ctx.output ++ key ++ middle ++ text := hstep.output
  have hle : ctx.output.utf8ByteSize ≤ before.output.utf8ByteSize := by
    simp only [before, String.utf8ByteSize_append]
    omega
  have hcovers {span : ℕ × ℕ} {t : String}
      (hc : Covers before.output.utf8ByteSize (step.run before).2.output span t) :
      Covers ctx.output.utf8ByteSize (step.run before).2.output span t :=
    ⟨le_trans hle hc.start_le, hc.le_end, hc.slice_eq⟩
  refine ⟨?_, ?_⟩
  · refine houtput.trans ?_
    simp only [String.append_assoc]
  · intro p
    by_cases hp : p = path
    · subst hp
      refine .inr ⟨_, key, text, Function.update_self .., .inr ⟨rfl, rfl, rfl⟩, ?_, ?_⟩
      · have hkey := covers_written ctx.output key (middle ++ text)
        simp only [← String.append_assoc] at hkey
        rw [← houtput] at hkey
        exact hkey
      · have hvalue := covers_written before.output text ""
        rw [String.append_empty, ← hstep.output] at hvalue
        exact hcovers hvalue
    · have hother (spans : Path → Option FieldSpan) (x : Option FieldSpan) :
          Function.update spans path x p = spans p := Function.update_of_ne hp ..
      rcases hstep.spans p with ⟨hsame, hnone⟩ | ⟨span, k, v, hsome, hkv, hkey, hvalue⟩
      · refine .inl ⟨(hother _ _).trans hsame, ?_⟩
        rintro k v (hkv | ⟨heq, -, -⟩)
        · exact hnone k v hkv
        · exact hp heq
      · exact .inr ⟨span, k, v, (hother _ _).trans hsome, .inl hkv, hcovers hkey, hcovers hvalue⟩

theorem AlwaysWrites.before {text' : String} {E : Entries} {step : Tracker Unit}
    (h : AlwaysWrites text' E step) (text : String) :
    AlwaysWrites (text ++ text') E (write text >>= fun _ => step) :=
  ((alwaysWrites_write text).seq h).congr rfl (by simp [Entries.or, noEntries])

theorem AlwaysWrites.after {text text' : String} {E : Entries} {step step' : Tracker Unit}
    (h : AlwaysWrites text E step) (h' : AlwaysWrites text' noEntries step') :
    AlwaysWrites (text ++ text') E (step >>= fun _ => step') :=
  (h.seq h').congr rfl (by simp [Entries.or, noEntries])

theorem alwaysWrites_forEach {α : Type} (between : String) (xs : List α)
    {step : α → Tracker Unit} {text : α → String} {E : α → Entries}
    (h : ∀ x ∈ xs, AlwaysWrites (text x) (E x) (step x)) :
    AlwaysWrites (between.intercalate (xs.map text)) (fun p k v => ∃ x ∈ xs, E x p k v)
      (forEach between step xs) := by
  induction xs with
  | nil =>
    intro ctx
    refine ⟨(String.append_empty).symm, ?_⟩
    intro p
    exact .inl ⟨rfl, by simp⟩
  | cons x xs ih =>
    have hx := h x List.mem_cons_self
    have hxs := ih fun y hy => h y (List.mem_cons_of_mem x hy)
    cases xs with
    | nil => exact hx.congr rfl (by simp)
    | cons y ys =>
      apply (hx.seq (hxs.before between)).congr
      · rw [List.map_cons, List.map_cons, List.map_cons, String.intercalate_cons_cons,
          String.append_assoc]
      · intro p k v
        simp only [Entries.or, List.mem_cons, exists_eq_or_imp]

theorem alwaysWrites_spanOf_write (text : String)
    (f : ℕ × ℕ → SpanTrackingContext → SpanTrackingContext)
    (houtput : ∀ span ctx, (f span ctx).output = ctx.output)
    (hspans : ∀ span ctx, (f span ctx).spans = ctx.spans) :
    AlwaysWrites text noEntries (spanOf (write text) >>= fun span => modify (f span)) := by
  intro ctx
  refine ⟨houtput _ _, ?_⟩
  intro p
  exact .inl ⟨congrFun (hspans _ _) p, fun k v h => h⟩

section

variable (config : ShapeFormatConfig) (typeName : ι → String)

/-- The entries of the fields of a struct or a variant. -/
def dataEntries (above : Path) (data : StructType ι) : Entries := fun p k v =>
  ∃ field ∈ data.fields, p = above ++ [.field field.name] ∧ v = typeName field.shape ∧
    match data.kind with
    | .struct => k = field.name
    | .tuple | .tupleStruct => field.name ≠ "" ∧ k = v
    | .unit => False

def variantEntries (variant : Variant ι) : Entries :=
  (dataEntries typeName [.variant variant.name] variant.data).or
    (.single [.variant variant.name] variant.name (variantContents config plain "" typeName variant))

def enumEntries (enumType : EnumType ι) : Entries := fun p k v =>
  ∃ variant ∈ enumType.variants, variantEntries config typeName variant p k v

theorem alwaysWrites_field (above : Path) (indent : String) (field : Field ι) :
    AlwaysWrites (fieldText config plain typeName indent field)
      (.single (above ++ [.field field.name]) field.name (typeName field.shape))
      (formatFieldWithSpans config typeName above indent field) := by
  have hkeyed := (alwaysWrites_write (typeName field.shape)).keyed
    (above ++ [PathSegment.field field.name]) field.name ": "
  have hline := hkeyed.after (alwaysWrites_write ",\n")
  apply ((hline.before indent).before
    (writeItemHead config plain field.doc (allAttributes field) indent)).congr
  · simp only [fieldText_plain, String.append_assoc]
  · simp [Entries.or, noEntries]

theorem alwaysWrites_tupleField (above : Path) (field : Field ι) :
    AlwaysWrites (typeName field.shape)
      (fun p k v => p = above ++ [.field field.name] ∧ v = typeName field.shape ∧
        field.name ≠ "" ∧ k = v)
      (formatTupleFieldWithSpans typeName above field) := by
  unfold formatTupleFieldWithSpans
  cases hempty : field.name.isEmpty with
  | true =>
    simp only [if_true]
    intro ctx
    have hname : field.name = "" := String.isEmpty_iff.mp hempty
    refine ⟨rfl, ?_⟩
    intro p
    refine .inl ⟨rfl, ?_⟩
    rintro k v ⟨-, -, hne, -⟩
    exact hne hname
  | false =>
    simp only [Bool.false_eq_true, if_false]
    have hname : field.name ≠ "" := by
      intro h
      rw [h] at hempty
      cases hempty
    apply ((alwaysWrites_write (typeName field.shape)).recorded
      (above ++ [PathSegment.field field.name])).congr rfl
    intro p k v
    simp only [Entries.or, noEntries, Entries.single, false_or]
    constructor
    · rintro ⟨rfl, rfl, rfl⟩
      exact ⟨rfl, rfl, hname, rfl⟩
    · rintro ⟨rfl, rfl, -, rfl⟩
      exact ⟨rfl, rfl, rfl⟩

/-- The fields of a struct or a variant, as its kind has them. -/
theorem alwaysWrites_fields (above : Path) (indent : String) (data : StructType ι)
    (hkind : data.kind = .struct) :
    AlwaysWrites (fieldsText config plain "" typeName indent data.fields) (dataEntries typeName above data)
      (forEach "" (formatFieldWithSpans config typeName above indent) data.fields) := by
  apply (alwaysWrites_forEach "" data.fields fun field _ =>
    alwaysWrites_field config typeName above indent field).congr rfl
  intro p k v
  simp only [dataEntries, hkind, Entries.single]
  constructor
  · rintro ⟨field, hmem, hp, hk, hv⟩
    exact ⟨field, hmem, hp, hv, hk⟩
  · rintro ⟨field, hmem, hp, hv, hk⟩
    exact ⟨field, hmem, hp, hk, hv⟩

theorem alwaysWrites_tuple (above : Path) (data : StructType ι)
    (hkind : data.kind = .tuple ∨ data.kind = .tupleStruct) :
    AlwaysWrites (tupleText plain typeName data.fields) (dataEntries typeName above data)
      (forEach ", " (formatTupleFieldWithSpans typeName above) data.fields) := by
  apply (alwaysWrites_forEach ", " data.fields fun field _ =>
    alwaysWrites_tupleField typeName above field).congr rfl
  intro p k v
  rcases hkind with hkind | hkind <;> simp only [dataEntries, hkind]

theorem dataEntries_unit (above : Path) {data : StructType ι} (hkind : data.kind = .unit)
    (p : Path) (k v : String) : ¬ dataEntries typeName above data p k v := by
  simp [dataEntries, hkind]

theorem alwaysWrites_typeEnd (text : String) :
    AlwaysWrites text noEntries (spanOf (write text) >>= setTypeEndSpan) :=
  alwaysWrites_spanOf_write text (fun span ctx => { ctx with typeEndSpan := some span })
    (fun _ _ => rfl) (fun _ _ => rfl)

theorem alwaysWrites_typeName (text : String) :
    AlwaysWrites text noEntries (spanOf (write text) >>= setTypeNameSpan) :=
  alwaysWrites_spanOf_write text (fun span ctx => { ctx with typeNameSpan := some span })
    (fun _ _ => rfl) (fun _ _ => rfl)

theorem AlwaysWrites.afterName {text : String} {E : Entries} {step : Tracker Unit}
    (h : AlwaysWrites text E step) (head keyword name : String) :
    AlwaysWrites (head ++ keyword ++ name ++ text) E (do
      write head
      write keyword
      let span ← spanOf (write name)
      setTypeNameSpan span
      step) := by
  apply ((((alwaysWrites_typeName name).seq h).before keyword).before head).congr
  · simp only [String.append_assoc]
  · simp [Entries.or, noEntries]

theorem alwaysWrites_structBody (shape : Shape ι) (structType : StructType ι) :
    AlwaysWrites (structText config plain "" typeName shape structType) (dataEntries typeName [] structType)
      (formatStructBodyWithSpans config typeName shape structType) := by
  unfold formatStructBodyWithSpans structText
  apply AlwaysWrites.afterName
  cases hkind : structType.kind with
  | struct =>
    apply (((alwaysWrites_fields config typeName [] "    " structType hkind).after
      (alwaysWrites_typeEnd "\x7d")).before " \x7b\n").congr
    · simp only [opening_plain, plain_apply, String.append_assoc]
    · simp
  | tuple =>
    apply (((alwaysWrites_tuple typeName [] structType (.inl hkind)).after
      (alwaysWrites_typeEnd ");")).before "(").congr
    · simp only [String.append_assoc]
      rfl
    · simp
  | tupleStruct =>
    apply (((alwaysWrites_tuple typeName [] structType (.inr hkind)).after
      (alwaysWrites_typeEnd ");")).before "(").congr
    · simp only [String.append_assoc]
      rfl
    · simp
  | unit =>
    apply (alwaysWrites_typeEnd ";").congr rfl
    intro p k v
    simp [noEntries, dataEntries_unit typeName [] hkind p k v]

theorem alwaysWrites_variantData (variant : Variant ι) :
    AlwaysWrites (variantDataText config plain "" typeName variant) (variantEntries config typeName variant)
      (formatVariantDataWithSpans config typeName variant) := by
  unfold formatVariantDataWithSpans variantDataText
  cases hkind : variant.data.kind with
  | unit =>
    apply ((alwaysWrites_write variant.name).recorded [.variant variant.name]).congr rfl
    intro p k v
    simp [Entries.or, noEntries, variantEntries, variantContents, hkind, plain_apply,
      dataEntries_unit typeName _ hkind p k v]
  | tuple =>
    apply (((alwaysWrites_tuple typeName [.variant variant.name] variant.data (.inl hkind)).after
      (alwaysWrites_write ")")).keyed [.variant variant.name] variant.name "(").congr
    · simp only [variantContents, hkind, plain_apply]
    · simp [variantEntries, variantContents, hkind]
  | tupleStruct =>
    apply (((alwaysWrites_tuple typeName [.variant variant.name] variant.data (.inr hkind)).after
      (alwaysWrites_write ")")).keyed [.variant variant.name] variant.name "(").congr
    · simp only [variantContents, hkind, plain_apply]
    · simp [variantEntries, variantContents, hkind]
  | struct =>
    apply (((alwaysWrites_fields config typeName [.variant variant.name] "        " variant.data
      hkind).after (alwaysWrites_write "    \x7d")).keyed [.variant variant.name] variant.name
        " \x7b\n").congr
    · simp only [variantContents, hkind, plain_apply, opening_plain]
      rfl
    · simp [variantEntries, variantContents, hkind]

theorem alwaysWrites_variant (variant : Variant ι) :
    AlwaysWrites (variantText config plain "" typeName variant) (variantEntries config typeName variant)
      (formatVariantWithSpans config typeName variant) := by
  apply ((((alwaysWrites_variantData config typeName variant).after
    (alwaysWrites_write ",\n")).before "    ").before
      (writeItemHead config plain variant.doc variant.attributes "    ")).congr
  · simp only [variantText_plain, String.append_assoc]
  · simp

theorem alwaysWrites_enumBody (shape : Shape ι) (enumType : EnumType ι) :
    AlwaysWrites (enumText config plain "" typeName shape enumType)
      (enumEntries config typeName enumType)
      (formatEnumBodyWithSpans config typeName shape enumType) := by
  have hvariants := alwaysWrites_forEach "" enumType.variants
    fun variant _ => alwaysWrites_variant config typeName variant
  apply ((((hvariants.after (alwaysWrites_typeEnd "\x7d")).before " \x7b\n").afterName
    (writeTypeHead config plain shape (reprStr enumType.enumRepr)) "enum "
      shape.typeIdentifier)).congr
  · simp only [enumText_plain, String.append_assoc]
  · simp [enumEntries]

/-- A definition is recorded as a whole besides its parts. -/
theorem AlwaysWrites.definition {text : String} {E : Entries} {body : Tracker Unit}
    (h : AlwaysWrites text E body) :
    AlwaysWrites text (E.or (.single [] text text)) (formatDefinitionWithSpans body) := by
  intro ctx
  have hrecorded := h.recorded [] ctx
  exact ⟨hrecorded.output, hrecorded.spans⟩

end

end Facet.Pretty.ShapeSpans
