import Facet.Lib.Descent
import Facet.Pretty.Layout

/-!
# When the measure of a shape ends

The printer measures the element shape of every list it writes. The measure follows references,
arrays, fields and payloads without noting where it has been, so it ends exactly on shapes from
which these lead into no cycle.
-/

namespace Facet.Pretty

open Descent Relation

variable {ι : Type}

/-- The shapes that the measure of a shape asks for. -/
def measured (shape : Shape ι) : List ι :=
  match shape.ty with
  | .pointer (.reference target) => [target]
  | .sequence (.array t _) => [t]
  | .user (.struct ty) => ty.fields.map Field.shape
  | .user (.enum ty) => ty.variants.flatMap fun v => v.data.fields.map Field.shape
  | _ => []

theorem foldlM_isSome_iff {α β : Type} {f : β → α → Option β} {P : α → Prop}
    (h : ∀ b a, (f b a).isSome ↔ P a) (xs : List α) (b : β) :
    (xs.foldlM f b).isSome ↔ ∀ a ∈ xs, P a := by
  induction xs generalizing b with
  | nil => simp
  | cons a xs ih =>
    rw [List.foldlM_cons]
    cases hfa : f b a with
    | none =>
      have hnot : ¬ P a := by
        rw [← h b a, hfa]
        simp
      simp [hnot]
    | some b' =>
      have ha : P a := by
        rw [← h b a, hfa]
        simp
      simpa [ha] using ih b'

theorem isSome_bind_some {α β : Type} (x : Option α) (f : α → β) :
    (do let a ← x; return f a : Option β).isSome = x.isSome := by
  cases x <;> rfl

/-- The measure of a shape exists as soon as those it asks for do. -/
theorem shapeChunkiness_succ_isSome (S : Shapes ι) (fuel : ℕ) (s : ι) :
    (shapeChunkiness S (fuel + 1) s).isSome ↔
      ∀ t ∈ measured (S s), (shapeChunkiness S fuel t).isSome := by
  have hfields : ∀ fs : List (Field ι), (fs.foldlM (fun sum (f : Field ι) => do
      return saturatingAdd sum (← shapeChunkiness S fuel f.shape)) 0).isSome ↔
        ∀ f ∈ fs, (shapeChunkiness S fuel f.shape).isSome := by
    intro fs
    apply foldlM_isSome_iff
    intro sum f
    rw [isSome_bind_some]
  rw [shapeChunkiness]
  unfold measured
  cases hty : (S s).ty with
  | undefined => simp
  | primitive ty => simp
  | sequence ty =>
    cases ty with
    | array t n =>
      dsimp only
      rw [isSome_bind_some]
      simp
    | slice t => simp
  | user ty =>
    cases ty with
    | struct ty => simpa using hfields ty.fields
    | enum ty =>
      dsimp only
      rw [foldlM_isSome_iff (P := fun v => ∀ f ∈ v.data.fields,
        (shapeChunkiness S fuel f.shape).isSome)]
      · simp only [List.mem_flatMap, List.mem_map]
        constructor
        · rintro h t ⟨v, hv, f, hf, rfl⟩
          exact h v hv f hf
        · intro h v hv f hf
          exact h f.shape ⟨v, hv, f, hf, rfl⟩
      · intro m v
        rw [isSome_bind_some, hfields v.data.fields]
    | union => simp
    | opaqueTy => simp
  | pointer ty =>
    cases ty with
    | reference target => simp
    | raw target => simp
    | function => simp

/-- One shape asks for the measure of the other. -/
abbrev AsksFor (S : Shapes ι) : ι → ι → Prop := Refers fun s => measured (S s)

theorem shapeChunkiness_isSome_iff_acc (S : Shapes ι) (s : ι) :
    (∃ fuel, (shapeChunkiness S fuel s).isSome) ↔ Acc (flip (AsksFor S)) s :=
  exists_isSome_iff_acc (fun _ => rfl) (shapeChunkiness_succ_isSome S) s

/-- The measure of a shape ends exactly when none of the shapes it comes to, through references,
arrays, fields and payloads, leads back to itself. -/
theorem shapeChunkiness_terminates_iff [Finite ι] (S : Shapes ι) (s : ι) :
    (∃ fuel, (shapeChunkiness S fuel s).isSome) ↔
      ∀ t, ReflTransGen (AsksFor S) s t → ¬ TransGen (AsksFor S) t t :=
  (shapeChunkiness_isSome_iff_acc S s).trans (acc_iff_no_cycle s)

/-- `struct Node<'a> { value: u32, next: Option<&'a Node<'a>> }` -/
inductive NodeType
  | node
  | next
  | reference
  | number
  deriving DecidableEq

instance : Finite NodeType :=
  Finite.of_surjective (fun i : Fin 4 => match i with
    | 0 => NodeType.node
    | 1 => .next
    | 2 => .reference
    | 3 => .number) (by rintro (_ | _ | _ | _) <;> decide)

def nodeShapes : Shapes NodeType
  | .node =>
    { ty := .user (.struct
        ⟨.struct, [{ name := "value", shape := .number }, { name := "next", shape := .next }]⟩)
      «def» := .undefined }
  | .next =>
    { ty := .user (.enum { variants :=
        [{ name := "None", data := ⟨.unit, []⟩ },
         { name := "Some", data := ⟨.tupleStruct, [{ name := "0", shape := .reference }]⟩ }] })
      «def» := .option .reference }
  | .reference =>
    { ty := .pointer (.reference .node), «def» := .pointer (some .node), inner := some .node }
  | .number => { ty := .primitive .numeric, «def» := .scalar, scalarType := some .u32 }

theorem shapeChunkiness_node (fuel : ℕ) :
    shapeChunkiness nodeShapes fuel .node = none ∧
      shapeChunkiness nodeShapes fuel .next = none ∧
      shapeChunkiness nodeShapes fuel .reference = none := by
  induction fuel with
  | zero => exact ⟨rfl, rfl, rfl⟩
  | succ fuel ih =>
    obtain ⟨hnode, hnext, href⟩ := ih
    have hnone : ∀ s t, t ∈ measured (nodeShapes s) → shapeChunkiness nodeShapes fuel t = none →
        shapeChunkiness nodeShapes (fuel + 1) s = none := by
      intro s t ht hfuel
      rw [← Option.not_isSome_iff_eq_none, shapeChunkiness_succ_isSome]
      intro h
      simpa [hfuel] using h t ht
    exact ⟨hnone .node .next (by decide) hnext, hnone .next .reference (by decide) href,
      hnone .reference .node (by decide) hnode⟩

/-- The measure of a list's element type does not end when the elements are linked. -/
theorem node_not_measured : ¬ ∃ fuel, (shapeChunkiness nodeShapes fuel .node).isSome := by
  rintro ⟨fuel, h⟩
  simp [(shapeChunkiness_node fuel).1] at h

/-- A number has no references, so its measure ends. -/
theorem number_measured : ∃ fuel, (shapeChunkiness nodeShapes fuel .number).isSome := by
  apply (shapeChunkiness_terminates_iff nodeShapes .number).mpr
  have hleaf : ∀ t, ¬ AsksFor nodeShapes .number t := fun t h => by cases h
  intro t hreach hcycle
  rcases hreach.cases_head with rfl | ⟨u, hu, -⟩
  · obtain ⟨u, hu, -⟩ := TransGen.head'_iff.mp hcycle
    exact hleaf u hu
  · exact hleaf u hu

end Facet.Pretty
