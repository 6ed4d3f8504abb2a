import Facet.Lib.MarkedText
import Facet.Pretty.CleanRuns

/-!
# The text of a value and its parts

What `format_peek_with_spans` is to print: the text of a value, with a mark around each value it
consists of. The rendering knows no positions in an output, no paths and no visited map; it is put
together from the texts of the parts.
-/

namespace Facet.Pretty

open MarkedText

variable {ι ν : Type}

/-- How a part of a value is reached; the number is that of the piece in the layout. -/
inductive PartStep
  /-- A field, an element, or the value of a map entry. -/
  | part (i : ℕ) (segments : Path)
  /-- Into the key of a map entry. -/
  | key (i : ℕ)
  /-- The payload of an option or a result, or a proxy: the same value, as far as paths go. -/
  | inside (i : ℕ)
  deriving DecidableEq

def PartStep.index : PartStep → ℕ
  | .part i _ | .key i | .inside i => i

/-- The path that the steps lead to; within a key the paths begin anew. -/
def pathOf : Path → List PartStep → Path
  | above, [] => above
  | above, .part _ segments :: steps => pathOf (above ++ segments) steps
  | _, .key _ :: steps => pathOf [] steps
  | above, .inside _ :: steps => pathOf above steps

/-- The part is not within the key of a map entry. -/
def IsValue (steps : List PartStep) : Prop := ∀ i, .key i ∉ steps

section

variable (call : Call ι ν → Option (Marked PartStep)) (keyText : ν → Option String)

def renderPiece (i : ℕ) : SpanPiece ι ν → Option (Marked PartStep)
  | .text s => some (.ofText s)
  | .call _ c => (call c).map (.inside (.inside i))
  | .elem segments c => (call c).map (.part (.part i segments))
  | .field segments name c =>
    (call c).map fun r => (Marked.ofText (name ++ ": ")).append (.part (.part i segments) r)
  | .entry segments key value => do
    let k ← call key
    let text ← keyText key.value
    let v ← call value
    return ((Marked.inside (.key i) k).append (.ofText ": ")).append
      (.part (.part i (segments ++ [.key text])) v)

def renderPieces : ℕ → List (SpanPiece ι ν) → Option (Marked PartStep)
  | _, [] => some (.ofText "")
  | i, p :: ps => do
    let r ← renderPiece call keyText i p
    let s ← renderPieces (i + 1) ps
    return r.append s

end

/-- The value of a call, or the proxy it converts to. -/
def renderCall (P : Program ι ν) (m : Memory ι ν)
    (rendering : ν → ℕ → ℕ → Bool → Option (Marked PartStep)) (c : Call ι ν) :
    Option (Marked PartStep) :=
  match c.proxy with
  | none => rendering c.value c.formatDepth c.typeDepth c.short
  | some p =>
    if (P.shapes p).sized then
      match m.convertOut c.value p with
      | .ok proxy => rendering proxy c.formatDepth c.typeDepth c.short
      | .error msg => some (.ofText ("/* proxy conversion failed: " ++ msg ++ " */"))
    else some (.ofText "/* proxy type must be sized for formatting */")

section

variable [DecidableEq ι] [DecidableEq ν] (P : Program ι ν) (pp : PrettyPrinter ι) (m : Memory ι ν)

/-- A key as `format_peek` prints it. -/
def keyText (fuel : ℕ) (above : List ν) (key : ν) : Option String :=
  ((formatPeekInternal P pp m fuel above key 0 0 false).run {}).map (·.2.output)

/-- The text of a value that contains no cycles; `above` is handed on to the printing of keys. -/
def render : ℕ → List ν → ν → ℕ → ℕ → Bool → Option (Marked PartStep)
  | 0, _, _, _, _, _ => none
  | fuel + 1, above, value, formatDepth, typeDepth, short => do
    let value ← derefPointers P m fuel value
    let value ← innermostPeek P m fuel value
    let ps ← unifiedPieces P pp m fuel value formatDepth typeDepth short []
    renderPieces (renderCall P m (render fuel (value :: above)))
      (keyText P pp m fuel (value :: above)) 0 ps

end

/-- The pieces of a value under another path. -/
def SpanPiece.under (path : Path) : SpanPiece ι ν → SpanPiece ι ν
  | .text s => .text s
  | .call segments c => .call (path ++ segments) c
  | .elem segments c => .elem (path ++ segments) c
  | .field segments name c => .field (path ++ segments) name c
  | .entry segments key value => .entry (path ++ segments) key value

section

variable (P : Program ι ν) (pp : PrettyPrinter ι) (m : Memory ι ν)

theorem unifiedStructFields_under (fields : List (Field ι)) (view : View ι ν) (fd td : ℕ)
    (short : Bool) (path above : Path) :
    unifiedStructFields pp fields view fd td short (above ++ path) =
      (unifiedStructFields pp fields view fd td short path).map (SpanPiece.under above) := by
  simp [unifiedStructFields, newlineToOutput, SpanPiece.under, List.map_flatMap]

theorem unifiedTupleFields_under (fields : List (Field ι)) (view : View ι ν) (fd td : ℕ)
    (short : Bool) (path above : Path) :
    unifiedTupleFields fields view fd td short (above ++ path) =
      (unifiedTupleFields fields view fd td short path).map (SpanPiece.under above) := by
  simp [unifiedTupleFields, SpanPiece.under, List.map_flatMap]

theorem unifiedStruct_under (ty : StructType ι) (view : View ι ν) (fd td : ℕ) (short : Bool)
    (path above : Path) :
    unifiedStruct P pp ty view fd td short (above ++ path) =
      (unifiedStruct P pp ty view fd td short path).map (SpanPiece.under above) := by
  unfold unifiedStruct
  cases ty.kind <;> simp [SpanPiece.under, unifiedStructFields_under, unifiedTupleFields_under]

theorem unifiedEnum_under (ty : EnumType ι) (view : View ι ν) (fd td : ℕ) (short : Bool)
    (path above : Path) :
    unifiedEnum P pp ty view fd td short (above ++ path) =
      (unifiedEnum P pp ty view fd td short path).map (SpanPiece.under above) := by
  unfold unifiedEnum
  cases view.activeVariant.bind (ty.variants[·]?) with
  | none => rfl
  | some variant =>
    dsimp only
    cases variant.data.kind <;>
      simp [SpanPiece.under, unifiedStructFields_under, unifiedTupleFields_under]

theorem unifiedOption_under (view : View ι ν) (fd td : ℕ) (short : Bool) (path above : Path) :
    (unifiedOption view fd td short (above ++ path) : List (SpanPiece ι ν)) =
      (unifiedOption view fd td short path).map (SpanPiece.under above) := by
  unfold unifiedOption
  cases view.option <;> rfl

theorem unifiedResult_under (view : View ι ν) (fd td : ℕ) (short : Bool) (path above : Path) :
    unifiedResult P view fd td short (above ++ path) =
      (unifiedResult P view fd td short path).map (SpanPiece.under above) := by
  unfold unifiedResult
  rcases view.result with _ | _ | _ <;> rfl

theorem unifiedList_under (isSimple : Bool) (view : View ι ν) (fd td : ℕ) (short : Bool)
    (path above : Path) :
    (unifiedList pp isSimple view fd td short (above ++ path) : List (SpanPiece ι ν)) =
      (unifiedList pp isSimple view fd td short path).map (SpanPiece.under above) := by
  simp [unifiedList, newlineToOutput, SpanPiece.under, List.map_flatMap]

theorem unifiedMap_under (view : View ι ν) (fd td : ℕ) (short : Bool) (path above : Path) :
    (unifiedMap pp view fd td short (above ++ path) : List (SpanPiece ι ν)) =
      (unifiedMap pp view fd td short path).map (SpanPiece.under above) := by
  simp [unifiedMap, newlineToOutput, SpanPiece.under, List.map_flatMap]

variable [DecidableEq ι]

theorem unifiedLayout_under (fuel : ℕ) (view : View ι ν) (fd td : ℕ) (short : Bool)
    (path above : Path) :
    unifiedLayout P pp fuel view fd td short (above ++ path) =
      (unifiedLayout P pp fuel view fd td short path).map (List.map (SpanPiece.under above)) := by
  unfold unifiedLayout
  cases unifiedArm P (P.shapes view.shape) with
  | scalar =>
    dsimp only
    split <;> rfl
  | option => simp [unifiedOption_under]
  | result => simp [unifiedResult_under]
  | struct ty => simp [unifiedStruct_under]
  | enum ty => simp [unifiedEnum_under]
  | listLike elem =>
    simp only [unifiedList_under]
    cases shapeChunkiness P.shapes fuel elem <;> rfl
  | map k => simp [unifiedMap_under]
  | _ => rfl

/-- The path of a value goes before the paths of its parts and changes nothing else. -/
theorem unifiedPieces_under (fuel : ℕ) (v : ν) (fd td : ℕ) (short : Bool) (path : Path) :
    unifiedPieces P pp m fuel v fd td short path =
      (unifiedPieces P pp m fuel v fd td short []).map (List.map (SpanPiece.under path)) := by
  unfold unifiedPieces
  cases (P.shapes (m.view v).shape).proxy with
  | some p => simp [SpanPiece.under]
  | none =>
    have hlayout := unifiedLayout_under P pp fuel (m.view v) fd td short [] path
    rwa [List.append_nil] at hlayout

end

/-- Between two parts there is text, and before the first one too unless there is some already. A
part under the value's own path needs none: its text begins before its first part. -/
def Spaced : Bool → List (SpanPiece ι ν) → Prop
  | _, [] => True
  | spaced, .text s :: ps => Spaced (spaced || s ≠ "") ps
  | _, .call segments _ :: ps => segments = [] ∧ Spaced false ps
  | spaced, .elem _ _ :: ps => spaced = true ∧ Spaced false ps
  | _, .field _ _ _ :: ps => Spaced false ps
  | spaced, .entry _ _ _ :: ps => spaced = true ∧ Spaced false ps

theorem Spaced.mono {ps : List (SpanPiece ι ν)} (h : Spaced false ps) (spaced : Bool) :
    Spaced spaced ps := by
  induction ps generalizing spaced with
  | nil => trivial
  | cons p ps ih =>
    cases p with
    | text s =>
      by_cases hs : s = ""
      · simp only [Spaced, hs, ne_eq, not_true, decide_false, Bool.or_false] at h ⊢
        exact ih h spaced
      · simpa [Spaced, hs] using h
    | call segments c => exact h
    | elem segments c => cases h.1
    | field segments name c => exact h
    | entry segments key value => cases h.1

/-- A part under the value's own path takes no segment. -/
def SpanPiece.Own : SpanPiece ι ν → Prop
  | .call segments _ => segments = []
  | _ => True

theorem Spaced.own {spaced : Bool} {ps : List (SpanPiece ι ν)} (h : Spaced spaced ps) :
    ∀ p ∈ ps, p.Own := by
  induction ps generalizing spaced with
  | nil => simp
  | cons p ps ih =>
    rw [List.forall_mem_cons]
    cases p with
    | text s => exact ⟨trivial, ih h⟩
    | call segments c => exact ⟨h.1, ih h.2⟩
    | elem segments c => exact ⟨trivial, ih h.2⟩
    | field segments name c => exact ⟨trivial, ih h⟩
    | entry segments key value => exact ⟨trivial, ih h.2⟩

theorem Spaced.append {spaced : Bool} {ps qs : List (SpanPiece ι ν)} (hps : Spaced spaced ps)
    (hqs : Spaced false qs) : Spaced spaced (ps ++ qs) := by
  induction ps generalizing spaced with
  | nil => exact hqs.mono spaced
  | cons p ps ih =>
    cases p with
    | text s => exact ih hps
    | call segments c => exact ⟨hps.1, ih hps.2⟩
    | elem segments c => exact ⟨hps.1, ih hps.2⟩
    | field segments name c => exact ih hps
    | entry segments key value => exact ⟨hps.1, ih hps.2⟩

theorem spaced_flatMap {α : Type} {xs : List α} {f : α → List (SpanPiece ι ν)}
    (h : ∀ x ∈ xs, Spaced false (f x)) (spaced : Bool) : Spaced spaced (xs.flatMap f) := by
  induction xs generalizing spaced with
  | nil => trivial
  | cons x xs ih =>
    rw [List.flatMap_cons]
    exact ((h x List.mem_cons_self).mono spaced).append
      (ih (fun y hy => h y (List.mem_cons_of_mem x hy)) false)

/-- Parts with a separator before all but the first, which comes after some text. -/
theorem spaced_zipIdx {α : Type} {line : α × ℕ → List (SpanPiece ι ν)}
    (hline : ∀ x i, Spaced (i = 0) (line (x, i))) (xs : List α) (n : ℕ) {spaced : Bool}
    (hspaced : n = 0 → spaced = true) : Spaced spaced ((xs.zipIdx n).flatMap line) := by
  induction xs generalizing n spaced with
  | nil => trivial
  | cons x xs ih =>
    rw [List.zipIdx_cons, List.flatMap_cons]
    have hfirst : Spaced spaced (line (x, n)) := by
      have hx := hline x n
      by_cases hn : n = 0
      · rw [hspaced hn]
        simpa [hn] using hx
      · simp only [hn, decide_false] at hx
        exact hx.mono spaced
    exact hfirst.append (ih (n + 1) (by simp))

section

variable (P : Program ι ν) (pp : PrettyPrinter ι) (m : Memory ι ν)

theorem spaced_structFields (fields : List (Field ι)) (view : View ι ν) (fd td : ℕ)
    (short : Bool) (path : Path) (spaced : Bool) :
    Spaced spaced (unifiedStructFields pp fields view fd td short path) := by
  unfold unifiedStructFields
  apply Spaced.append
  · apply Spaced.append (by trivial)
    apply spaced_flatMap
    intro e _
    simp [Spaced, newlineToOutput]
  · simp [Spaced, newlineToOutput]

theorem spaced_tupleFields (fields : List (Field ι)) (view : View ι ν) (fd td : ℕ)
    (short : Bool) (path : Path) (spaced : Bool) :
    Spaced spaced (unifiedTupleFields fields view fd td short path) := by
  unfold unifiedTupleFields
  apply Spaced.append
  · simp only [List.cons_append, List.nil_append, Spaced]
    apply spaced_zipIdx
    · intro field i
      cases i <;> simp [Spaced]
    · simp
  · simp [Spaced]

theorem spaced_struct (ty : StructType ι) (view : View ι ν) (fd td : ℕ) (short : Bool) :
    Spaced false (unifiedStruct P pp ty view fd td short []) := by
  unfold unifiedStruct
  cases ty.kind with
  | unit => trivial
  | struct => exact spaced_structFields pp ty.fields view fd td short [] _
  | tuple => exact spaced_tupleFields ty.fields view fd td short [] _
  | tupleStruct => exact spaced_tupleFields ty.fields view fd td short [] _

theorem spaced_enum (ty : EnumType ι) (view : View ι ν) (fd td : ℕ) (short : Bool) :
    Spaced false (unifiedEnum P pp ty view fd td short []) := by
  unfold unifiedEnum
  cases view.activeVariant.bind (ty.variants[·]?) with
  | none => trivial
  | some variant =>
    dsimp only
    cases variant.data.kind with
    | unit => trivial
    | struct => exact spaced_structFields pp _ view fd td short _ _
    | tuple => exact spaced_tupleFields _ view fd td short _ _
    | tupleStruct => exact spaced_tupleFields _ view fd td short _ _

theorem spaced_option (view : View ι ν) (fd td : ℕ) (short : Bool) :
    Spaced false (unifiedOption view fd td short [] : List (SpanPiece ι ν)) := by
  unfold unifiedOption
  cases view.option <;> simp [Spaced]

theorem spaced_result (view : View ι ν) (fd td : ℕ) (short : Bool) :
    Spaced false (unifiedResult P view fd td short []) := by
  unfold unifiedResult
  rcases view.result with _ | _ | _ <;> simp [Spaced]

theorem spaced_list (isSimple : Bool) (view : View ι ν) (fd td : ℕ) (short : Bool) :
    Spaced false (unifiedList pp isSimple view fd td short [] : List (SpanPiece ι ν)) := by
  unfold unifiedList
  apply Spaced.append
  · simp only [List.cons_append, List.nil_append, Spaced]
    apply spaced_zipIdx
    · intro item i
      cases i <;> cases short <;> cases isSimple <;> simp [Spaced]
    · simp
  · simp [Spaced, newlineToOutput]

theorem spaced_map (view : View ι ν) (fd td : ℕ) (short : Bool) :
    Spaced false (unifiedMap pp view fd td short [] : List (SpanPiece ι ν)) := by
  unfold unifiedMap
  apply Spaced.append
  · simp only [List.cons_append, List.nil_append, Spaced]
    have hlines (xs : List (ν × ν)) (n : ℕ) (hlen : n + xs.length = view.entries.length) :
        Spaced true ((xs.zipIdx n).flatMap fun e =>
          ([newlineToOutput pp (!short) (fd + 1),
            .entry [] ⟨e.1.1, none, fd + 1, td + 1, true⟩ ⟨e.1.2, none, fd + 1, td + 1, short⟩,
            .text (if !short || e.2 + 1 < view.entries.length then "," else "")] :
            List (SpanPiece ι ν))) := by
      induction xs generalizing n with
      | nil => trivial
      | cons x xs ih =>
        rw [List.length_cons] at hlen
        simp only [List.zipIdx_cons, List.flatMap_cons, List.cons_append, List.nil_append, Spaced,
          newlineToOutput, Bool.true_or, true_and]
        cases xs with
        | nil => trivial
        | cons y ys =>
          have hless : n + 1 < view.entries.length := by
            rw [List.length_cons] at hlen
            omega
          simpa [hless, newlineToOutput] using ih (n + 1) (by omega)
    exact hlines view.entries 0 (by simp)
  · simp [Spaced, newlineToOutput]

variable [DecidableEq ι]

theorem spaced_layout {fuel : ℕ} {view : View ι ν} {fd td : ℕ} {short : Bool}
    {ps : List (SpanPiece ι ν)} (h : unifiedLayout P pp fuel view fd td short [] = some ps) :
    Spaced false ps := by
  unfold unifiedLayout at h
  cases harm : unifiedArm P (P.shapes view.shape) <;> simp only [harm] at h
  case scalar =>
    split at h <;> cases h <;> trivial
  case listLike elem =>
    obtain ⟨chunkiness, -, hps⟩ := Option.bind_eq_some_iff.1 h
    cases hps
    exact spaced_list pp _ view fd td short
  all_goals cases h
  case option => exact spaced_option view fd td short
  case result => exact spaced_result P view fd td short
  case struct ty => exact spaced_struct P pp ty view fd td short
  case enum ty => exact spaced_enum P pp ty view fd td short
  case map k => exact spaced_map pp view fd td short
  all_goals trivial

theorem spaced_pieces {fuel : ℕ} {v : ν} {fd td : ℕ} {short : Bool} {ps : List (SpanPiece ι ν)}
    (h : unifiedPieces P pp m fuel v fd td short [] = some ps) : Spaced false ps := by
  unfold unifiedPieces at h
  cases hp : (P.shapes (m.view v).shape).proxy with
  | some p =>
    simp only [hp] at h
    cases h
    exact ⟨rfl, trivial⟩
  | none =>
    simp only [hp] at h
    exact spaced_layout P pp h

end

/-- A rendering of a value: its parts are nested as the ways to them are, and it begins with some
text of its own. -/
structure Fitting (r : Marked PartStep) : Prop where
  fits : r.Fits
  isOpen : r.Open
  heads : r.Heads fun _ => True

theorem fitting_ofText (text : String) : Fitting (.ofText text) where
  fits := Marked.fits_ofText text
  isOpen := by simp [Marked.Open, Marked.ofText]
  heads := Marked.heads_ofText text

/-- Pieces whose first part may be at their very beginning. -/
def SpanPiece.NeedsSpace : SpanPiece ι ν → Prop
  | .elem _ _ | .entry _ _ _ => True
  | _ => False

section

variable {call : Call ι ν → Option (Marked PartStep)} {text : ν → Option String}

theorem renderPiece_fits (hcall : ∀ c r, call c = some r → Fitting r) {i : ℕ}
    {p : SpanPiece ι ν} {r : Marked PartStep} (h : renderPiece call text i p = some r) :
    r.Fits ∧ r.Heads (fun step => step.index = i) ∧ (¬ p.NeedsSpace → r.Open) := by
  cases p with
  | text s =>
    cases h
    exact ⟨Marked.fits_ofText s, Marked.heads_ofText s, fun _ => (fitting_ofText s).isOpen⟩
  | call segments c =>
    obtain ⟨r, hr, rfl⟩ := Option.map_eq_some_iff.mp h
    have hfit := hcall c r hr
    exact ⟨hfit.fits.inside _, Marked.heads_inside rfl, fun _ => hfit.isOpen.inside _⟩
  | elem segments c =>
    obtain ⟨r, hr, rfl⟩ := Option.map_eq_some_iff.mp h
    have hfit := hcall c r hr
    exact ⟨hfit.fits.part hfit.heads _, Marked.heads_part rfl, fun hspace => absurd trivial hspace⟩
  | field segments name c =>
    obtain ⟨r, hr, rfl⟩ := Option.map_eq_some_iff.mp h
    have hfit := hcall c r hr
    have hpart : (Marked.part (.part i segments) r).Heads fun step => step.index = i :=
      Marked.heads_part rfl
    refine ⟨(hfit.fits.part hfit.heads _).afterText hpart _,
      (Marked.heads_ofText _).append hpart, fun _ => Marked.open_afterText ?_⟩
    have hcolon : (": " : String).utf8ByteSize = 2 := by decide
    rw [String.utf8ByteSize_append, hcolon]
    omega
  | entry segments key value =>
    obtain ⟨k, hk, h⟩ := Option.bind_eq_some_iff.mp h
    obtain ⟨t, -, h⟩ := Option.bind_eq_some_iff.mp h
    obtain ⟨v, hv, h⟩ := Option.bind_eq_some_iff.mp h
    cases h
    have hkey := (hcall key k hk).fits.inside (PartStep.key i)
    have hvalue := hcall value v hv
    have hkeyHeads : ((k.inside (.key i)).append (.ofText ": ")).Heads fun step =>
        step = PartStep.key i :=
      (Marked.heads_inside (S := fun step => step = PartStep.key i) rfl).append
        (Marked.heads_ofText _)
    have hpart : (Marked.part (PartStep.part i (segments ++ [.key t])) v).Heads fun step =>
        step = PartStep.part i (segments ++ [.key t]) := Marked.heads_part rfl
    refine ⟨?_, ?_, fun hspace => absurd trivial hspace⟩
    · apply (hkey.beforeText (Marked.heads_inside (S := fun _ => True) trivial) ": ").append
        (hvalue.fits.part hvalue.heads _) hkeyHeads hpart
      · rintro step rfl heq
        cases heq
      · exact .inl (hkey.closed_beforeText (by decide))
    · apply (hkeyHeads.mono ?_).append (hpart.mono ?_)
      · rintro step rfl
        rfl
      · rintro step rfl
        rfl

theorem renderPieces_fits (hcall : ∀ c r, call c = some r → Fitting r) {i : ℕ}
    {ps : List (SpanPiece ι ν)} {r : Marked PartStep} {spaced : Bool} (hspaced : Spaced spaced ps)
    (h : renderPieces call text i ps = some r) :
    r.Fits ∧ r.Heads (fun step => i ≤ step.index) ∧ (spaced = false → r.Open) := by
  induction ps generalizing i r spaced with
  | nil =>
    cases h
    exact ⟨Marked.fits_ofText "", Marked.heads_ofText "", fun _ => (fitting_ofText "").isOpen⟩
  | cons p ps ih =>
    obtain ⟨rp, hrp, h⟩ := Option.bind_eq_some_iff.mp h
    obtain ⟨rest, hrest, h⟩ := Option.bind_eq_some_iff.mp h
    cases h
    obtain ⟨hfits, hheads, hopen⟩ := renderPiece_fits hcall hrp
    have hafter : ∃ spaced', Spaced spaced' ps ∧ (spaced' = false ∨ rp.marks = []) := by
      cases p with
      | text s =>
        cases hrp
        exact ⟨_, hspaced, .inr rfl⟩
      | call segments c => exact ⟨false, hspaced.2, .inl rfl⟩
      | elem segments c => exact ⟨false, hspaced.2, .inl rfl⟩
      | field segments name c => exact ⟨false, hspaced, .inl rfl⟩
      | entry segments key value => exact ⟨false, hspaced.2, .inl rfl⟩
    obtain ⟨spaced', hps, hgap⟩ := hafter
    obtain ⟨hfits', hheads', hopen'⟩ := ih hps hrest
    refine ⟨?_, ?_, ?_⟩
    · apply hfits.append hfits' hheads hheads'
      · intro step hstep hle
        rw [hstep] at hle
        omega
      · rcases hgap with rfl | hnone
        · exact .inr (hopen' rfl)
        · left
          simp [Marked.Closed, hnone]
    · apply (hheads.mono ?_).append (hheads'.mono ?_)
      · intro step hstep
        omega
      · intro step hstep
        omega
    · rintro rfl
      cases p with
      | text s =>
        cases hrp
        apply (fitting_ofText s).isOpen.append
        by_cases hs : s = ""
        · right
          simp only [Spaced, hs, ne_eq, not_true, decide_false, Bool.or_false] at hspaced
          exact (ih hspaced hrest).2.2 rfl
        · left
          exact Nat.pos_of_ne_zero (mt String.utf8ByteSize_eq_zero_iff.mp hs)
      | call segments c => exact (hopen id).append (.inr ((ih hspaced.2 hrest).2.2 rfl))
      | elem segments c => cases hspaced.1
      | field segments name c => exact (hopen id).append (.inr ((ih hspaced hrest).2.2 rfl))
      | entry segments key value => cases hspaced.1

theorem size_le_of_renderPieces {i : ℕ} {ps : List (SpanPiece ι ν)} {r : Marked PartStep}
    (h : renderPieces call text i ps = some r) {s : String} (hs : .text s ∈ ps) :
    s.utf8ByteSize ≤ r.text.utf8ByteSize := by
  induction ps generalizing i r with
  | nil => cases hs
  | cons p ps ih =>
    obtain ⟨first, hfirst, h⟩ := Option.bind_eq_some_iff.mp h
    obtain ⟨rest, hrest, heq⟩ := Option.bind_eq_some_iff.mp h
    cases heq
    rw [Marked.append, String.utf8ByteSize_append]
    rcases List.mem_cons.mp hs with rfl | hs
    · cases hfirst
      exact Nat.le_add_right _ _
    · exact (ih hrest hs).trans (Nat.le_add_left _ _)

end

section

variable [DecidableEq ι] [DecidableEq ν] {P : Program ι ν} {pp : PrettyPrinter ι}
  {m : Memory ι ν}

theorem render_fits {fuel : ℕ} {above : List ν} {v : ν} {fd td : ℕ} {short : Bool}
    {r : Marked PartStep} (h : render P pp m fuel above v fd td short = some r) : Fitting r := by
  induction fuel generalizing above v fd td short r with
  | zero => cases h
  | succ fuel ih =>
    obtain ⟨w, -, h⟩ := Option.bind_eq_some_iff.mp h
    obtain ⟨u, -, h⟩ := Option.bind_eq_some_iff.mp h
    obtain ⟨ps, hps, h⟩ := Option.bind_eq_some_iff.mp h
    have hcall (c : Call ι ν) (r : Marked PartStep)
        (hc : renderCall P m (render P pp m fuel (u :: above)) c = some r) : Fitting r := by
      unfold renderCall at hc
      split at hc
      · exact ih hc
      · split_ifs at hc
        · split at hc
          · exact ih hc
          · cases hc
            exact fitting_ofText _
        · cases hc
          exact fitting_ofText _
    obtain ⟨hfits, hheads, hopen⟩ := renderPieces_fits hcall (spaced_pieces P pp m hps) h
    exact ⟨hfits, hopen rfl, hheads.mono fun _ _ => trivial⟩

end

end Facet.Pretty
