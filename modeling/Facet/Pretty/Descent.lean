import Facet.Pretty.Spans
import Mathlib.Logic.Relation

/-!
# What the printers descend into

The calls in a layout do not depend on depths or on being short: for every value there is
one list of subjects, the parts that the printer goes on to format, each with the proxy
it is converted to first. The subjects make the values of a memory into a graph, and a
run of a printer is a walk through that graph.
-/

namespace Facet.Pretty

variable {ι ν : Type}

/-- A value that is formatted, with the proxy it is converted to first. -/
abbrev Subject (ι ν : Type) := ν × Option ι

def Call.subject (c : Call ι ν) : Subject ι ν := (c.value, c.proxy)

def Piece.subject : Piece ι ν → Option (Subject ι ν)
  | .text _ => none
  | .call c => some c.subject

def subjects (ps : List (Piece ι ν)) : List (Subject ι ν) := ps.filterMap Piece.subject

section Subjects

variable (ps qs : List (Piece ι ν))

@[simp] theorem subjects_nil : subjects ([] : List (Piece ι ν)) = [] := rfl

@[simp] theorem subjects_text (s : String) : subjects (.text s :: ps) = subjects ps := rfl

@[simp] theorem subjects_call (c : Call ι ν) :
    subjects (.call c :: ps) = c.subject :: subjects ps := rfl

@[simp] theorem subjects_append : subjects (ps ++ qs) = subjects ps ++ subjects qs :=
  List.filterMap_append

@[simp] theorem subjects_flatMap {α : Type} (l : List α) (f : α → List (Piece ι ν)) :
    subjects (l.flatMap f) = l.flatMap fun a => subjects (f a) :=
  List.filterMap_flatMap

@[simp] theorem Call.subject_mk (v : ν) (p : Option ι) (fd td : ℕ) (short : Bool) :
    Call.subject ⟨v, p, fd, td, short⟩ = (v, p) := rfl

end Subjects

theorem zipIdx_flatMap_fst {α β : Type} (l : List α) (f : α → List β) (n : ℕ) :
    (l.zipIdx n).flatMap (fun e => f e.1) = l.flatMap f := by
  induction l generalizing n with
  | nil => rfl
  | cons a l ih => simp [List.zipIdx_cons, ih]

section Plain

variable (P : Program ι ν) (pp : PrettyPrinter ι) (m : Memory ι ν)

def fieldSubject (field : Field ι) (value : ν) : List (Subject ι ν) :=
  if field.isSensitive then [] else [(value, field.proxy)]

def tupleSubjects (fields : List (Field ι)) (peekField : ℕ → ν) : List (Subject ι ν) :=
  match soleUndocumented fields with
  | some field => [(peekField 0, field.proxy)]
  | none =>
    (fields.take (pp.visibleCollectionLen fields.length)).zipIdx.flatMap fun e =>
      fieldSubject e.1 (peekField e.2)

def structSubjects (fields : List (Field ι)) (peekField : ℕ → ν) : List (Subject ι ν) :=
  let visible := visibleIndices m fields peekField
  (visible.take (pp.visibleCollectionLen visible.length)).flatMap fun e =>
    fieldSubject e.1 (peekField e.2)

def dataSubjects (ty : StructType ι) (peekField : ℕ → ν) : List (Subject ι ν) :=
  match ty.kind with
  | .unit => []
  | .struct => structSubjects pp m ty.fields peekField
  | _ => tupleSubjects pp ty.fields peekField

/-- The entries before the ellipsis. -/
def visibleEntries {α : Type} (entries : List α) : List α :=
  entries.take (pp.visibleCollectionLen entries.length)

def direct (v : ν) : Subject ι ν := (v, none)

variable [DecidableEq ι]

/-- The parts of a value of the given view that `format` goes on to format. -/
def layoutSubjects (view : View ι ν) : List (Subject ι ν) :=
  match arm P (P.shapes view.shape) with
  | .option => view.option.toList.map direct
  | .result =>
    match view.result with
    | some (.ok v) | some (.error v) => [direct v]
    | none => []
  | .struct ty => dataSubjects pp m ty view.field
  | .enum ty =>
    match view.activeVariant.bind (ty.variants[·]?) with
    | none => []
    | some variant => dataSubjects pp m variant.data view.field
  | .listLike elem =>
    if elem = P.u8Shape ∧ pp.listU8AsBytes then [] else (visibleEntries pp view.items).map direct
  | .set => (visibleEntries pp view.items).map direct
  | .map _ => (visibleEntries pp view.entries).flatMap fun e => [direct e.1, direct e.2]
  | .dynamicValue =>
    match view.dynamic with
    | .array elems => (visibleEntries pp elems).map direct
    | .object entries => (visibleEntries pp entries).map fun e => direct e.2
    | _ => []
  | _ => []

def valueSubjects (v : ν) : List (Subject ι ν) :=
  match (P.shapes (m.view v).shape).proxy with
  | some p => [(v, some p)]
  | none => layoutSubjects P pp m (m.view v)

end Plain

section PlainLemmas

variable (P : Program ι ν) (pp : PrettyPrinter ι) (m : Memory ι ν)

theorem subjects_fieldValue (field : Field ι) (value : ν) (fd td : ℕ) (short : Bool)
    (ps : List (Piece ι ν)) :
    subjects (fieldValue pp field value fd td short :: ps)
      = fieldSubject field value ++ subjects ps := by
  unfold fieldValue fieldSubject
  split <;> rfl

theorem subjects_formatTupleFields (fields : List (Field ι)) (peekField : ℕ → ν) (fd td : ℕ)
    (short comma : Bool) :
    subjects (formatTupleFields pp fields peekField fd td short comma)
      = tupleSubjects pp fields peekField := by
  unfold formatTupleFields tupleSubjects
  cases soleUndocumented fields with
  | some field => rfl
  | none =>
    cases fields with
    | nil => simp [punctuation]
    | cons f fs =>
      simp [punctuation, newlineIf, subjects_fieldValue, separator, omittedText]

theorem subjects_formatStructFields (fields : List (Field ι)) (peekField : ℕ → ν) (fd td : ℕ)
    (short : Bool) :
    subjects (formatStructFields pp m fields peekField fd td short)
      = structSubjects pp m fields peekField := by
  unfold formatStructFields structSubjects
  simp only [subjects_append]
  split
  · next h =>
    rw [List.isEmpty_iff] at h
    simp [punctuation, h]
  · simp [punctuation, newlineIf, subjects_fieldValue,
      zipIdx_flatMap_fst _ fun e : Field ι × ℕ => fieldSubject e.1 (peekField e.2)]

theorem subjects_formatStruct (ty : StructType ι) (view : View ι ν) (fd td : ℕ) (short : Bool) :
    subjects (formatStruct P pp m ty view fd td short) = dataSubjects pp m ty view.field := by
  unfold formatStruct dataSubjects
  cases ty.kind <;>
    simp [shapeDoc, typeNameOf, subjects_formatTupleFields, subjects_formatStructFields]

theorem subjects_formatEnum (ty : EnumType ι) (view : View ι ν) (fd td : ℕ) (short : Bool) :
    subjects (formatEnum P pp m ty view fd td short) =
      match view.activeVariant.bind (ty.variants[·]?) with
      | none => []
      | some variant => dataSubjects pp m variant.data view.field := by
  unfold formatEnum dataSubjects
  cases view.activeVariant.bind (ty.variants[·]?) with
  | none => rfl
  | some variant =>
    dsimp only
    cases variant.data.kind <;> simp [shapeDoc, typeNameOf, punctuation,
      subjects_formatTupleFields, subjects_formatStructFields]

theorem subjects_formatItems (isSimple : Bool) (items : List ν) (fd td : ℕ) (short : Bool) :
    subjects (formatItems pp isSimple items fd td short)
      = (visibleEntries pp items).map (direct (ι := ι)) := by
  simp [formatItems, punctuation, newlineIf, omittedText, visibleEntries, direct,
    zipIdx_flatMap_fst _ fun item : ν => [((item, none) : Subject ι ν)], List.map_eq_flatMap]

theorem subjects_formatEntries {α : Type} (entries : List α) (noun : String) (fd : ℕ)
    (short : Bool) (entry : α → List (Piece ι ν)) :
    subjects (formatEntries pp entries noun fd short entry)
      = (visibleEntries pp entries).flatMap fun e => subjects (entry e) := by
  simp [formatEntries, newlineIf, omittedText, separator, visibleEntries,
    zipIdx_flatMap_fst _ fun e => subjects (entry e)]

theorem subjects_formatByteList (items : List ν) (fd : ℕ) (short : Bool) :
    subjects (formatByteList pp m items fd short) = [] := by
  have hbytes (l : List (ν × ℕ)) :
      subjects (l.map fun e => formatByte (ι := ι) pp m e.1 e.2 fd short) = [] := by
    simp [subjects, formatByte, Piece.subject]
  unfold formatByteList
  cases pp.exceeds items.length <;> simp [punctuation, newlineIf, hbytes]

theorem visibleEntries_of_isEmpty {α : Type} {entries : List α} (h : entries.isEmpty) :
    visibleEntries pp entries = [] := by
  simp [visibleEntries, List.isEmpty_iff.1 h]

theorem subjects_formatDynamicValue (view : View ι ν) (fd td : ℕ) (short : Bool) :
    subjects (formatDynamicValue P pp view fd td short) =
      match view.dynamic with
      | .array elems => (visibleEntries pp elems).map direct
      | .object entries => (visibleEntries pp entries).map fun e => direct e.2
      | _ => [] := by
  unfold formatDynamicValue
  cases view.dynamic with
  | array elems =>
    dsimp only
    split
    · next h => simp [visibleEntries_of_isEmpty pp h, punctuation]
    · simp [subjects_formatEntries, punctuation, List.map_eq_flatMap, direct]
  | object entries =>
    dsimp only
    split
    · next h => simp [visibleEntries_of_isEmpty pp h, punctuation]
    · simp [subjects_formatEntries, punctuation, List.map_eq_flatMap, direct]
  | _ => rfl

theorem subjects_formatMap {fuel : ℕ} {k : ι} {view : View ι ν} {fd td : ℕ} {short : Bool}
    {ps : List (Piece ι ν)} (h : formatMap P pp fuel k view fd td short = some ps) :
    subjects ps = (visibleEntries pp view.entries).flatMap fun e => [direct e.1, direct e.2] := by
  obtain ⟨chunkiness, -, hps⟩ := Option.bind_eq_some_iff.1 h
  cases hps
  split
  · next hempty => simp [visibleEntries_of_isEmpty pp hempty, typeNameOf, punctuation]
  · simp [subjects_formatEntries, typeNameOf, punctuation, direct]

theorem subjects_formatSet (view : View ι ν) (fd td : ℕ) (short : Bool) :
    subjects (formatSet P pp view fd td short) = (visibleEntries pp view.items).map direct := by
  unfold formatSet
  split
  · next hempty => simp [visibleEntries_of_isEmpty pp hempty, typeNameOf, punctuation]
  · simp [subjects_formatEntries, typeNameOf, punctuation, List.map_eq_flatMap, direct]

variable [DecidableEq ι]

theorem subjects_formatListLike {fuel : ℕ} {elem : ι} {view : View ι ν} {fd td : ℕ}
    {short : Bool} {ps : List (Piece ι ν)}
    (h : formatListLike P pp m fuel elem view fd td short = some ps) :
    subjects ps = if elem = P.u8Shape ∧ pp.listU8AsBytes then []
      else (visibleEntries pp view.items).map direct := by
  unfold formatListLike at h
  split at h
  · next hempty =>
    cases h
    simp [visibleEntries_of_isEmpty pp hempty, typeNameOf, punctuation]
  · split at h
    · next hbytes =>
      cases h
      simp [hbytes, typeNameOf, subjects_formatByteList]
    · next hbytes =>
      obtain ⟨chunkiness, -, hps⟩ := Option.bind_eq_some_iff.1 h
      cases hps
      simp [hbytes, typeNameOf, subjects_formatItems]

theorem subjects_layout {fuel : ℕ} {view : View ι ν} {fd td : ℕ} {short : Bool}
    {ps : List (Piece ι ν)} (h : layout P pp m fuel view fd td short = some ps) :
    subjects ps = layoutSubjects P pp m view := by
  unfold layout at h
  unfold layoutSubjects
  cases hk : arm P (P.shapes view.shape) <;> simp only [hk] at h ⊢
  case scalar =>
    split at h <;> cases h <;> rfl
  case option =>
    cases h
    unfold formatOption
    cases view.option <;> dsimp only <;> split <;>
      simp [typeNameOf, punctuation, direct]
  case result =>
    cases h
    unfold formatResult
    rcases view.result with _ | _ | _ <;> rfl
  case listLike elem => exact subjects_formatListLike P pp m h
  case map k => exact subjects_formatMap P pp h
  all_goals cases h
  case struct ty => exact subjects_formatStruct P pp m ty view fd td short
  case enum ty => exact subjects_formatEnum P pp m ty view fd td short
  case set => exact subjects_formatSet P pp view fd td short
  case dynamicValue => exact subjects_formatDynamicValue P pp view fd td short
  all_goals rfl

theorem subjects_pieces {fuel : ℕ} {v : ν} {fd td : ℕ} {short : Bool} {ps : List (Piece ι ν)}
    (h : pieces P pp m fuel v fd td short = some ps) : subjects ps = valueSubjects P pp m v := by
  unfold pieces at h
  unfold valueSubjects
  cases hp : (P.shapes (m.view v).shape).proxy with
  | some p =>
    simp only [hp] at h
    cases h
    rfl
  | none =>
    simp only [hp] at h
    exact subjects_layout P pp m h

end PlainLemmas

/-- Which of the two recursions formats a value. -/
inductive Mode
  | plain
  | spanned
  deriving DecidableEq

/-- A value under one of the recursions. -/
abbrev Site (ν : Type) := Mode × ν

abbrev SiteSubject (ι ν : Type) := Mode × Subject ι ν

def SpanPiece.subjects : SpanPiece ι ν → List (SiteSubject ι ν)
  | .text _ => []
  | .call _ c | .elem _ c | .field _ _ c => [(.spanned, c.subject)]
  | .entry _ key value =>
    [(.spanned, key.subject), (.plain, direct key.value), (.spanned, value.subject)]

def spanSubjects (ps : List (SpanPiece ι ν)) : List (SiteSubject ι ν) :=
  ps.flatMap SpanPiece.subjects

section SpanSubjects

variable (ps qs : List (SpanPiece ι ν))

@[simp] theorem spanSubjects_nil : spanSubjects ([] : List (SpanPiece ι ν)) = [] := rfl

@[simp] theorem spanSubjects_cons (p : SpanPiece ι ν) :
    spanSubjects (p :: ps) = p.subjects ++ spanSubjects ps := rfl

@[simp] theorem spanSubjects_append :
    spanSubjects (ps ++ qs) = spanSubjects ps ++ spanSubjects qs :=
  List.flatMap_append

@[simp] theorem spanSubjects_flatMap {α : Type} (l : List α) (f : α → List (SpanPiece ι ν)) :
    spanSubjects (l.flatMap f) = l.flatMap fun a => spanSubjects (f a) :=
  List.flatMap_assoc

end SpanSubjects

def spannedFields (fields : List (Field ι)) (peekField : ℕ → ν) : List (SiteSubject ι ν) :=
  fields.zipIdx.map fun e => (.spanned, peekField e.2, e.1.proxy)

def spannedData (ty : StructType ι) (peekField : ℕ → ν) : List (SiteSubject ι ν) :=
  match ty.kind with
  | .unit => []
  | _ => spannedFields ty.fields peekField

/-- The parts of a value of the given view that `format_peek_with_spans` goes on to
format; a map's keys are formatted a second time without spans. -/
def unifiedLayoutSubjects (P : Program ι ν) (view : View ι ν) : List (SiteSubject ι ν) :=
  match unifiedArm P (P.shapes view.shape) with
  | .option => view.option.toList.map fun v => (.spanned, direct v)
  | .result =>
    match view.result with
    | some (.ok v) | some (.error v) => [(.spanned, direct v)]
    | none => []
  | .struct ty => spannedData ty view.field
  | .enum ty =>
    match view.activeVariant.bind (ty.variants[·]?) with
    | none => []
    | some variant => spannedData variant.data view.field
  | .listLike _ => view.items.map fun v => (.spanned, direct v)
  | .map _ =>
    view.entries.flatMap fun e =>
      [(.spanned, direct e.1), (.plain, direct e.1), (.spanned, direct e.2)]
  | _ => []

def unifiedSubjects (P : Program ι ν) (m : Memory ι ν) (v : ν) : List (SiteSubject ι ν) :=
  match (P.shapes (m.view v).shape).proxy with
  | some p => [(.spanned, v, some p)]
  | none => unifiedLayoutSubjects P (m.view v)

section SpanLemmas

variable (P : Program ι ν) (pp : PrettyPrinter ι) (m : Memory ι ν)

theorem spanSubjects_unifiedStructFields (fields : List (Field ι)) (view : View ι ν)
    (fd td : ℕ) (short : Bool) (path : Path) :
    spanSubjects (unifiedStructFields pp fields view fd td short path)
      = spannedFields fields view.field := by
  simp [unifiedStructFields, spannedFields, SpanPiece.subjects, newlineToOutput,
    List.map_eq_flatMap]

theorem spanSubjects_unifiedTupleFields (fields : List (Field ι)) (view : View ι ν)
    (fd td : ℕ) (short : Bool) (path : Path) :
    spanSubjects (unifiedTupleFields fields view fd td short path)
      = spannedFields fields view.field := by
  simp [unifiedTupleFields, spannedFields, SpanPiece.subjects, List.map_eq_flatMap]

theorem spanSubjects_unifiedStruct (ty : StructType ι) (view : View ι ν) (fd td : ℕ)
    (short : Bool) (path : Path) :
    spanSubjects (unifiedStruct P pp ty view fd td short path) = spannedData ty view.field := by
  unfold unifiedStruct spannedData
  cases ty.kind <;> simp [SpanPiece.subjects, spanSubjects_unifiedStructFields,
    spanSubjects_unifiedTupleFields]

theorem spanSubjects_unifiedEnum (ty : EnumType ι) (view : View ι ν) (fd td : ℕ) (short : Bool)
    (path : Path) :
    spanSubjects (unifiedEnum P pp ty view fd td short path) =
      match view.activeVariant.bind (ty.variants[·]?) with
      | none => []
      | some variant => spannedData variant.data view.field := by
  unfold unifiedEnum spannedData
  cases view.activeVariant.bind (ty.variants[·]?) with
  | none => rfl
  | some variant =>
    dsimp only
    cases variant.data.kind <;> simp [SpanPiece.subjects, spanSubjects_unifiedStructFields,
      spanSubjects_unifiedTupleFields]

theorem spanSubjects_unifiedList (isSimple : Bool) (view : View ι ν) (fd td : ℕ) (short : Bool)
    (path : Path) :
    spanSubjects (unifiedList pp isSimple view fd td short path)
      = view.items.map fun v => ((.spanned, direct v) : SiteSubject ι ν) := by
  simp [unifiedList, SpanPiece.subjects, newlineToOutput, direct, List.map_eq_flatMap,
    zipIdx_flatMap_fst _ fun v : ν => [((.spanned, v, none) : SiteSubject ι ν)]]

theorem spanSubjects_unifiedMap (view : View ι ν) (fd td : ℕ) (short : Bool) (path : Path) :
    spanSubjects (unifiedMap pp view fd td short path) =
      view.entries.flatMap fun e =>
        ([(.spanned, direct e.1), (.plain, direct e.1), (.spanned, direct e.2)] :
          List (SiteSubject ι ν)) := by
  simp [unifiedMap, SpanPiece.subjects, newlineToOutput, direct,
    zipIdx_flatMap_fst _ fun e : ν × ν =>
      ([(.spanned, e.1, none), (.plain, e.1, none), (.spanned, e.2, none)] :
        List (SiteSubject ι ν))]

variable [DecidableEq ι]

theorem spanSubjects_unifiedLayout {fuel : ℕ} {view : View ι ν} {fd td : ℕ} {short : Bool}
    {path : Path} {ps : List (SpanPiece ι ν)}
    (h : unifiedLayout P pp fuel view fd td short path = some ps) :
    spanSubjects ps = unifiedLayoutSubjects P view := by
  unfold unifiedLayout at h
  unfold unifiedLayoutSubjects
  cases hk : unifiedArm P (P.shapes view.shape) <;> simp only [hk] at h ⊢
  case scalar =>
    split at h <;> cases h <;> rfl
  case listLike elem =>
    obtain ⟨chunkiness, -, hps⟩ := Option.bind_eq_some_iff.1 h
    cases hps
    exact spanSubjects_unifiedList pp _ view fd td short path
  all_goals cases h
  case option =>
    unfold unifiedOption
    cases view.option <;> rfl
  case result =>
    unfold unifiedResult
    rcases view.result with _ | _ | _ <;> rfl
  case struct ty => exact spanSubjects_unifiedStruct P pp ty view fd td short path
  case enum ty => exact spanSubjects_unifiedEnum P pp ty view fd td short path
  case map k => exact spanSubjects_unifiedMap pp view fd td short path
  all_goals rfl

theorem spanSubjects_unifiedPieces {fuel : ℕ} {v : ν} {fd td : ℕ} {short : Bool} {path : Path}
    {ps : List (SpanPiece ι ν)} (h : unifiedPieces P pp m fuel v fd td short path = some ps) :
    spanSubjects ps = unifiedSubjects P m v := by
  unfold unifiedPieces at h
  unfold unifiedSubjects
  cases hp : (P.shapes (m.view v).shape).proxy with
  | some p =>
    simp only [hp] at h
    cases h
    rfl
  | none =>
    simp only [hp] at h
    exact spanSubjects_unifiedLayout P pp h

end SpanLemmas

theorem lookThrough_of_borrowInner {P : Program ι ν} {m : Memory ι ν} {v w : ν}
    (h : borrowInner P m v = some w) : lookThrough P m v = some w := by
  simp [lookThrough, h]

section Graph

variable (P : Program ι ν) (pp : PrettyPrinter ι) (m : Memory ι ν) [DecidableEq ι]

/-- The value that is formatted for a subject; none where a conversion fails. -/
def Subject.target (s : Subject ι ν) : Option ν :=
  match s.2 with
  | none => some s.1
  | some p => if (P.shapes p).sized then (m.convertOut s.1 p).toOption else none

def siteSubjects (x : Site ν) : List (SiteSubject ι ν) :=
  match x.1 with
  | .plain => (valueSubjects P pp m x.2).map fun s => (.plain, s)
  | .spanned => unifiedSubjects P m x.2

/-- A printer goes from a value to the next one: through a pointer or a wrapper, or from
an innermost value to a part. -/
inductive Step : Site ν → Site ν → Prop
  | through {mode v w} (h : lookThrough P m v = some w) : Step (mode, v) (mode, w)
  | part {mode mode' v s w} (hv : lookThrough P m v = none)
      (hs : (mode', s) ∈ siteSubjects P pp m (mode, v)) (hw : Subject.target P m s = some w) :
      Step (mode, v) (mode', w)

/-- No value comes again below itself. -/
def Unrepeated (root : Site ν) : Prop :=
  ∀ x, Relation.ReflTransGen (Step P pp m) root x →
    ∀ y, Relation.TransGen (Step P pp m) x y → y.2 ≠ x.2

variable {P pp m}

theorem Unrepeated.descends {x y : Site ν} (h : Unrepeated P pp m x)
    (hy : Relation.ReflTransGen (Step P pp m) x y) : Unrepeated P pp m y :=
  fun z hz w hw => h z (hy.trans hz) w hw

end Graph

end Facet.Pretty
