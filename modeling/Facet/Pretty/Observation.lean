import Facet.Pretty.Descent

/-!
# What an observer of a value asks

Two values are compared by the answers they give. An observer starts at a value and goes
on to its parts. What is public leaves out the insides of sensitive fields, and with them
the conversions that run over a sensitive field. A printer asks for what it comes to on
its way down, sensitive or not.
-/

namespace Facet.Pretty

open Relation

variable {ι ν : Type}

/-- One thing a printer can ask a memory. -/
inductive Read (ι ν : Type)
  | view (v : ν)
  | convert (v : ν) (proxy : ι)

/-- A view without the texts of a value that has reflected fields: such texts are made
from the fields and are never printed. -/
def View.local (P : Program ι ν) (view : View ι ν) : View ι ν :=
  match arm P (P.shapes view.shape) with
  | .struct _ | .enum _ => { view with str := "", display := "", debug := "" }
  | _ => view

/-- Both memories answer the question in the same way. -/
def SameAnswer (P : Program ι ν) (m m' : Memory ι ν) : Read ι ν → Prop
  | .view v => (m.view v).local P = (m'.view v).local P
  | .convert v p => m.convertOut v p = m'.convertOut v p

/-- Two memories give an observer the same answers. -/
def AgreeOn (P : Program ι ν) (m m' : Memory ι ν) (asked : Read ι ν → Prop) : Prop :=
  ∀ r, asked r → SameAnswer P m m' r

/-- The parts of a value that are neither fields nor behind a wrapper. -/
inductive View.Part (view : View ι ν) : ν → Prop
  | pointee {w} (h : view.pointee = some w) : Part view w
  | option {w} (h : view.option = some w) : Part view w
  | ok {w} (h : view.result = some (.ok w)) : Part view w
  | err {w} (h : view.result = some (.error w)) : Part view w
  | item {w} (h : w ∈ view.items) : Part view w
  | key {e} (h : e ∈ view.entries) : Part view e.1
  | value {e} (h : e ∈ view.entries) : Part view e.2
  | elem {elems w} (h : view.dynamic = .array elems) (hw : w ∈ elems) : Part view w
  | member {entries e} (h : view.dynamic = .object entries) (he : e ∈ entries) : Part view e.2

/-- A struct or an active variant with a sensitive field. -/
def SensitiveHere (shapes : Shapes ι) (m : Memory ι ν) (v : ν) : Prop :=
  ∃ ty, (m.view v).data shapes = some ty ∧ ∃ f ∈ ty.fields, f.isSensitive

/-- The content of a value, sensitive or not. -/
inductive Content (shapes : Shapes ι) (m : Memory ι ν) : ν → ν → Prop
  | part {v w} (hw : (m.view v).Part w) : Content shapes m v w
  | inner {v w} (hw : (m.view v).inner = some w) : Content shapes m v w
  | field {v i ty f} (ht : (m.view v).data shapes = some ty) (hf : ty.fields[i]? = some f) :
      Content shapes m v ((m.view v).field i)

/-- A conversion of the value runs over a sensitive field. -/
def HoldsSensitive (shapes : Shapes ι) (m : Memory ι ν) (v : ν) : Prop :=
  ∃ w, ReflTransGen (Content shapes m) v w ∧ SensitiveHere shapes m w

/-- What an observer comes to ask who starts at a value and enters no sensitive field, no wrapper
with one, and no conversion that runs over one. -/
inductive PublicRead (shapes : Shapes ι) (m : Memory ι ν) (root : ν) : Read ι ν → Prop
  | root : PublicRead shapes m root (.view root)
  | part {v w} (hv : PublicRead shapes m root (.view v)) (hw : (m.view v).Part w) :
      PublicRead shapes m root (.view w)
  | inner {v w} (hv : PublicRead shapes m root (.view v)) (hs : ¬SensitiveHere shapes m v)
      (hw : (m.view v).inner = some w) : PublicRead shapes m root (.view w)
  | proxy {v p} (hv : PublicRead shapes m root (.view v)) (hs : ¬HoldsSensitive shapes m v)
      (hp : (shapes (m.view v).shape).proxy = some p) : PublicRead shapes m root (.convert v p)
  | field {v i ty f} (hv : PublicRead shapes m root (.view v))
      (ht : (m.view v).data shapes = some ty) (hf : ty.fields[i]? = some f)
      (hs : ¬f.isSensitive) (hp : f.proxy = none) :
      PublicRead shapes m root (.view ((m.view v).field i))
  | fieldProxy {v i ty f p} (hv : PublicRead shapes m root (.view v))
      (ht : (m.view v).data shapes = some ty) (hf : ty.fields[i]? = some f)
      (hs : ¬f.isSensitive) (hc : ¬HoldsSensitive shapes m ((m.view v).field i))
      (hp : f.proxy = some p) : PublicRead shapes m root (.convert ((m.view v).field i) p)
  | converted {v p w} (hv : PublicRead shapes m root (.convert v p))
      (hw : m.convertOut v p = .ok w) : PublicRead shapes m root (.view w)

section Printers

variable [DecidableEq ι]

/-- The items of a list of bytes that `format` writes itself. -/
def shownBytes (P : Program ι ν) (pp : PrettyPrinter ι) (view : View ι ν) : List ν :=
  match arm P (P.shapes view.shape) with
  | .listLike elem =>
    if elem = P.u8Shape ∧ pp.listU8AsBytes then
      match pp.exceeds view.items.length with
      | some max => view.items.take (max / 2) ++ view.items.drop (view.items.length - max / 2)
      | none => view.items
    else []
  | _ => []

/-- What a printer asks that starts at a site: it looks at every value it goes down to, at the bytes
that it writes itself, and converts the parts that have proxies. -/
inductive Asked (P : Program ι ν) (pp : PrettyPrinter ι) (m : Memory ι ν) (root : Site ν) :
    Read ι ν → Prop
  | view {x} (hx : ReflTransGen (Step P pp m) root x) : Asked P pp m root (.view x.2)
  | byte {v w} (hv : ReflTransGen (Step P pp m) root (.plain, v)) (hlook : lookThrough P m v = none)
      (hproxy : (P.shapes (m.view v).shape).proxy = none)
      (hw : w ∈ shownBytes P pp (m.view v)) : Asked P pp m root (.view w)
  | convert {x mode v p} (hx : ReflTransGen (Step P pp m) root x)
      (hlook : lookThrough P m x.2 = none) (hs : (mode, v, some p) ∈ siteSubjects P pp m x)
      (hsized : (P.shapes p).sized = true) : Asked P pp m root (.convert v p)

end Printers

inductive EntryPoint
  | format
  | formatPeek
  | formatPeekWithSpans

def EntryPoint.mode : EntryPoint → Mode
  | .format | .formatPeek => .plain
  | .formatPeekWithSpans => .spanned

/-- Colors are always off where spans are recorded. -/
def EntryPoint.printer (pp : PrettyPrinter ι) : EntryPoint → PrettyPrinter ι
  | .format | .formatPeek => pp
  | .formatPeekWithSpans => { pp with useColors := false }

section Arms

variable {P : Program ι ν}

theorem ty_of_arm_struct {shape : Shape ι} {ty : StructType ι} (h : arm P shape = .struct ty) :
    shape.ty = .user (.struct ty) := by
  unfold arm at h
  split at h <;> try cases h
  · assumption
  · split at h
    · cases h
    · split at h <;> cases h

theorem ty_of_arm_enum {shape : Shape ι} {ty : EnumType ι} (h : arm P shape = .enum ty) :
    shape.ty = .user (.enum ty) := by
  unfold arm at h
  split at h <;> try cases h
  · assumption
  · split at h
    · cases h
    · split at h <;> cases h

theorem unifiedArm_of_arm_struct {shape : Shape ι} {ty : StructType ι}
    (h : arm P shape = .struct ty) : unifiedArm P shape = .struct ty := by
  unfold arm at h
  unfold unifiedArm
  split at h <;> try cases h
  · split <;> simp_all
  · split at h
    · cases h
    · split at h <;> cases h

theorem unifiedArm_of_arm_enum {shape : Shape ι} {ty : EnumType ι}
    (h : arm P shape = .enum ty) : unifiedArm P shape = .enum ty := by
  unfold arm at h
  unfold unifiedArm
  split at h <;> try cases h
  · split <;> simp_all
  · split at h
    · cases h
    · split at h <;> cases h

theorem data_of_struct {shapes : Shapes ι} {view : View ι ν} {ty : StructType ι}
    (h : (shapes view.shape).ty = .user (.struct ty)) : view.data shapes = some ty := by
  simp [View.data, h]

theorem data_of_enum {shapes : Shapes ι} {view : View ι ν} {ty : EnumType ι} {variant : Variant ι}
    (h : (shapes view.shape).ty = .user (.enum ty))
    (hv : view.activeVariant.bind (ty.variants[·]?) = some variant) :
    view.data shapes = some variant.data := by
  simp [View.data, h, hv]

end Arms

end Facet.Pretty
