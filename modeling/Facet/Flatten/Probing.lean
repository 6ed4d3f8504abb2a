import Facet.Flatten.Schema
import Facet.Flatten.WireKeys

/-!
# Probing documents

The probing solver is told the keys of a document together with the keys around them and
drops the resolutions that do not know the path. The documents of a type are described by
their layouts: the keys that are there once a variant is chosen for every flattened enum.
-/

namespace Facet.Flatten

variable {ι : Type}

inductive ProbeResult (ι : Type)
  | keepGoing
  | solved (config : Resolution ι)
  | noMatch

structure ProbingSolver (ι : Type) where
  candidates : List (Resolution ι)

namespace ProbingSolver

def new (schema : Schema ι) : ProbingSolver ι where
  candidates := schema.resolutions

/-- The answer for the remaining candidates; `finish` gives it too. -/
def answer (s : ProbingSolver ι) : ProbeResult ι :=
  match s.candidates with
  | [] => .noMatch
  | [config] => .solved config
  | _ => .keepGoing

def probeKey (s : ProbingSolver ι) (path : KeyPath) (key : String) :
    ProbeResult ι × ProbingSolver ι :=
  let fullPath := path ++ [key]
  let s := { s with candidates := s.candidates.filter fun c => c.hasKeyPath fullPath }
  (s.answer, s)

/-- The answers to keys that are reported one after another, with the keys around them. -/
def probeKeys (s : ProbingSolver ι) : List (KeyPath × String) → List (ProbeResult ι)
  | [] => []
  | (path, key) :: rest =>
    (s.probeKey path key).1 :: (s.probeKey path key).2.probeKeys rest

end ProbingSolver

/-- A key of a document. -/
structure DocumentKey where
  /-- The keys around it. -/
  ancestors : KeyPath
  key : String
  /-- It is there for the variant of a flattened enum inside a field that is not flattened. -/
  inner : Bool := false
  deriving DecidableEq, Repr

namespace DocumentKey

def path (k : DocumentKey) : KeyPath := k.ancestors ++ [k.key]

def mark (k : DocumentKey) : DocumentKey := { k with inner := true }

end DocumentKey

section Layouts

variable (shapes : Shapes ι) (b : SchemaBuilder ι)

/-- Neither an option nor a wrapper or proxy for another shape. -/
structure Direct (s : ι) : Prop where
  inner : (shapes s).inner = none
  proxy : (shapes s).proxy = none
  option : isOptionType (shapes s) = false

/-- One choice of variants lays out the part, at the keys `ancestors`, with the keys `D`.
The part is made of scalars, structs, flattened structs and flattened enums in the
flattened representation; `inField` tells whether it is inside a field that is not
flattened. -/
inductive Laid : Part ι → (inField : Bool) → (ancestors : KeyPath) → List DocumentKey → Prop
  | nil {inField : Bool} {ancestors : KeyPath} : Laid (.fields []) inField ancestors []
  | scalar {f : Field ι} {fs : List (Field ι)} {inField : Bool} {ancestors : KeyPath}
      {D : List DocumentKey} :
      f.isFlattened = false → ¬ IsAggregate shapes f.shape →
      Laid (.fields fs) inField ancestors D →
      Laid (.fields (f :: fs)) inField ancestors (⟨ancestors, f.effectiveName, false⟩ :: D)
  | nested {f : Field ι} {fs : List (Field ι)} {st : StructType ι} {inField : Bool}
      {ancestors : KeyPath} {E D : List DocumentKey} :
      f.isFlattened = false → (shapes f.shape).ty = .user (.struct st) →
      Laid (.fields st.fields) true (ancestors ++ [f.effectiveName]) E →
      Laid (.fields fs) inField ancestors D →
      Laid (.fields (f :: fs)) inField ancestors
        (⟨ancestors, f.effectiveName, false⟩ :: (E ++ D))
  | flat {f : Field ι} {fs : List (Field ι)} {inField : Bool} {ancestors : KeyPath}
      {E D : List DocumentKey} :
      f.isFlattened = true → Laid (.flattened f) inField ancestors E →
      Laid (.fields fs) inField ancestors D →
      Laid (.fields (f :: fs)) inField ancestors (E ++ D)
  | struct {f : Field ι} {st : StructType ι} {inField : Bool} {ancestors : KeyPath}
      {D : List DocumentKey} :
      Direct shapes f.shape → (shapes f.shape).ty = .user (.struct st) →
      Laid (.fields st.fields) inField ancestors D → Laid (.flattened f) inField ancestors D
  | enum {f : Field ι} {en : EnumType ι} {v : Variant ι} {inField : Bool}
      {ancestors : KeyPath} {D : List DocumentKey} :
      Direct shapes f.shape → (shapes f.shape).ty = .user (.enum en) →
      b.reprOf shapes f.shape = .flattened → v ∈ en.variants →
      Laid (.variant v) inField ancestors D →
      Laid (.flattened f) inField ancestors (if inField then D.map DocumentKey.mark else D)
  /-- A newtype variant around a struct has the struct's keys. -/
  | newtype {v : Variant ι} {f : Field ι} {st : StructType ι} {inField : Bool}
      {ancestors : KeyPath} {D : List DocumentKey} :
      newtypeField v = some f → Direct shapes f.shape →
      (shapes f.shape).ty = .user (.struct st) →
      Laid (.fields st.fields) inField ancestors D → Laid (.variant v) inField ancestors D
  | payload {v : Variant ι} {f : Field ι} {inField : Bool} {ancestors : KeyPath}
      {D : List DocumentKey} :
      newtypeField v = some f → Direct shapes f.shape →
      (∀ st, (shapes f.shape).ty ≠ .user (.struct st)) →
      Laid (.fields v.data.fields) inField ancestors D → Laid (.variant v) inField ancestors D
  | variant {v : Variant ι} {inField : Bool} {ancestors : KeyPath} {D : List DocumentKey} :
      newtypeField v = none → Laid (.fields v.data.fields) inField ancestors D →
      Laid (.variant v) inField ancestors D

/-- The layouts of whole documents. -/
inductive DocumentLaid (s : ι) : List DocumentKey → Prop
  | struct {st : StructType ι} {D : List DocumentKey} :
      (shapes s).ty = .user (.struct st) → Laid shapes b (.fields st.fields) false [] D →
      DocumentLaid s D
  | enum {en : EnumType ι} {v : Variant ι} {D : List DocumentKey} :
      (shapes s).ty = .user (.enum en) → v ∈ en.variants →
      Laid shapes b (.variant v) false [] D → DocumentLaid s D
  | scalar : ¬ IsAggregate shapes s → DocumentLaid s []

end Layouts

end Facet.Flatten
