import Facet.Flatten.Collecting
import Facet.Flatten.FuelStable
import Facet.Flatten.Schema
import Facet.Flatten.WireKeys

/-!
# Construction that ends

Building a schema recurses through flattened fields, the contents of variants, transparent wrappers
and proxies, and keeps no record of what it has visited. It ends where flattening ends, or where two
fields for one key are found first.
-/

namespace Facet.Flatten

open Filter Fuel

variable {ι : Type} {shapes : Shapes ι} {b : SchemaBuilder ι}

/-- The step does not run out of fuel. -/
abbrev Ends {α : Type} (result : Analysis α) : Prop := Finished SchemaError.unfinished result

theorem ends_orDuplicateField {α : Type} (result : Except DuplicateFieldError α) :
    Ends (orDuplicateField result) := by
  intro heq
  cases result with
  | error e => cases heq
  | ok x => cases heq

/-- The step reports two fields for one key. -/
def Fails {α : Type} (result : Analysis α) : Prop := ∃ err, result = .error (.duplicateField err)

theorem Ends.ok_or_fails {α : Type} {result : Analysis α} (h : Ends result) :
    (∃ x, result = .ok x) ∨ Fails result := by
  match result, h with
  | .ok x, _ => exact .inl ⟨x, rfl⟩
  | .error (.duplicateField err), _ => exact .inr ⟨err, rfl⟩
  | .error .unfinished, h => exact absurd rfl h

theorem Fails.ends {α : Type} {result : Analysis α} (h : Fails result) : Ends result := by
  obtain ⟨err, rfl⟩ := h
  intro heq
  cases heq

theorem Fails.bind {α β : Type} {result : Analysis α} (h : Fails result)
    (next : α → Analysis β) : Fails (result >>= next) := by
  obtain ⟨err, rfl⟩ := h
  exact ⟨err, rfl⟩

/-- What Rust guarantees of its types: they have a finite size, so that nothing contains itself by
value, and no enum with a representation is without variants. -/
structure FiniteTypes (shapes : Shapes ι) : Prop where
  finite : ∀ s, Finite shapes s
  variants : ∀ s en, (shapes s).ty = .user (.enum en) → en.variants ≠ []

theorem settles_forkVariant (n : ℕ) (f : Field ι) (fieldPath : FieldPath) (keyPrefix : KeyPath)
    (optional : Bool) (s : ι) (base : Resolution ι) (v : Variant ι) :
    Settles (b.forkVariant shapes n f fieldPath keyPrefix optional s base v)
      (b.forkVariant shapes (n + 1) f fieldPath keyPrefix optional s base v) := by
  have hanalysis : AnalysisSettles shapes b n := analysisSettles n
  have hcollection : OnlySettles shapes n := onlySettles n
  have hcontents := hanalysis.variant v
  have honly := hcollection.variant v
  unfold SchemaBuilder.forkVariant
  cases b.reprOf shapes s with
  | externallyTagged =>
    apply Stays.bind (.refl _)
    intro forked
    exact (honly _ forked).bind fun r => .refl _
  | flattened => exact (hcontents _ _).bind fun configs => .refl _
  | internallyTagged tag =>
    apply Stays.bind (.refl _)
    intro forked
    exact (hcontents _ _).bind fun configs => .refl _
  | adjacentlyTagged tag content =>
    apply Stays.bind (.refl _)
    intro forked
    exact (honly _ _).bind fun r => .refl _

end Facet.Flatten
