import Facet.Dynamic.Partial

/-!
# Documents under construction

What the operations mean: a document is built from drafts, the innermost of which is edited. A
finished draft becomes an element of the array below it, the value of a key of the object below
it, or the value of a field.
-/

namespace Facet.Dynamic

/-- What a finished draft becomes. -/
inductive Role
  | root
  | element
  | entry (key : String)
  | field (idx : ℕ)
  deriving DecidableEq, Repr

/-- A value being built; a new one has no contents yet. -/
structure Draft (S : Type) where
  value : Option (Json S)
  role : Role

/-- The fields of the struct and the drafts, the innermost first. -/
structure Document (S : Type) where
  fields : List (Option (Json S))
  drafts : List (Draft S)

namespace Document

variable {S V F : Type}

/-- What a value becomes when it receives a finished draft. -/
def accept (parent : Option (Json S)) (role : Role) (x : Json S) : Option (Json S) :=
  match role, parent with
  | .element, some (.array xs) => some (.array (xs ++ [x]))
  | .entry key, some (.object es) => some (.object (Function.update es key (some x)))
  | _, _ => none

def edit (doc : Document S) (f : Option (Json S) → Option (Json S)) : Option (Document S) :=
  match doc.drafts with
  | draft :: rest => (f draft.value).map fun j =>
      { doc with drafts := { draft with value := some j } :: rest }
  | [] => none

/-- A draft above the one on top. -/
def push (doc : Document S) (begin : Option (Json S) → Option (Draft S)) : Option (Document S) :=
  match doc.drafts with
  | draft :: _ => (begin draft.value).map fun d => { doc with drafts := d :: doc.drafts }
  | [] => none

/-- A new element of an array. -/
def beginElement : Option (Json S) → Option (Draft S)
  | some (.array _) => some ⟨none, .element⟩
  | _ => none

/-- The value of a key of an object; the one that is there is edited further. -/
def beginEntry (key : String) : Option (Json S) → Option (Draft S)
  | some (.object es) => some ⟨es key, .entry key⟩
  | _ => none

/-- The value of a field, edited further where there is one. -/
def beginField (doc : Document S) (idx : ℕ) : Option (Document S) :=
  match doc.drafts with
  | [] => doc.fields[idx]?.map fun x => { doc with drafts := [⟨x, .field idx⟩] }
  | _ :: _ => none

/-- The innermost draft is finished. A field may be left open and entered again. -/
def finish (doc : Document S) : Option (Document S) :=
  match doc.drafts with
  | ⟨some x, role⟩ :: parent :: rest =>
    (accept parent.value role x).map fun j =>
      { doc with drafts := { parent with value := some j } :: rest }
  | [⟨x, .field idx⟩] => some ⟨doc.fields.set idx x, []⟩
  | _ => none

/-- An operation on the document. Deferred mode is not visible in it. -/
def step (D : DynamicType S V F) (doc : Document S) : Op V F → Option (Document S)
  | .initList => doc.edit fun x => some (Json.toArray x)
  | .beginListItem => doc.push beginElement
  | .initMap => doc.edit fun x => some (Json.toObject x)
  | .beginObjectEntry key => doc.push (beginEntry key)
  | .set src => doc.edit fun _ => src.json D
  | .endFrame => doc.finish
  | .beginNthField idx => doc.beginField idx
  | .beginDeferred => some doc
  | .finishDeferred => some doc

def run (D : DynamicType S V F) (doc : Document S) (ops : List (Op V F)) : Option (Document S) :=
  ops.foldlM (step D) doc

/-- An empty document: a dynamic value, or a struct of so many fields. -/
def new : Option ℕ → Document S
  | none => ⟨[], [⟨none, .root⟩]⟩
  | some n => ⟨List.replicate n none, []⟩

/-- The finished document is what was built. -/
def Shows (D : DynamicType S V F) (doc : Document S) : Built V → Prop
  | .value v => doc.drafts = [⟨some (D.view v), .root⟩]
  | .fields contents => doc.drafts = [] ∧ ∃ vs : List V,
      contents = vs.map some ∧ doc.fields = vs.map fun v => some (D.view v)

end Document

end Facet.Dynamic
