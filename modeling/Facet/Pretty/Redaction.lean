import Facet.Lib.OptionState
import Facet.Pretty.Observation

/-!
# What redaction hides

Two values that answer all that a printer asks in the same way are printed in the same way.
The printers ask for more than what is public, and a value's public part decides what is
printed only together with the sensitive fields that a printer enters.
-/

namespace Facet.Pretty

open OptionState Relation

variable {ι ν : Type}

/-- No field's serialization depends on the field's value. -/
def NoSkipPredicates (shapes : Shapes ι) (ν : Type) : Prop :=
  ∀ (view : View ι ν) ty, view.data shapes = some ty → ∀ f ∈ ty.fields,
    f.skipSerializingIf = false

section Local

variable {P : Program ι ν} {view view' : View ι ν}

@[simp] theorem View.local_shape : (view.local P).shape = view.shape := by
  unfold View.local
  split <;> rfl

@[simp] theorem View.local_pointee : (view.local P).pointee = view.pointee := by
  unfold View.local
  split <;> rfl

@[simp] theorem View.local_inner : (view.local P).inner = view.inner := by
  unfold View.local
  split <;> rfl

variable (P) in
theorem byte_eq_of_local_eq (h : view.local P = view'.local P) : view.byte = view'.byte := by
  have hlocal (w : View ι ν) : (w.local P).byte = w.byte := by
    unfold View.local
    split <;> rfl
  rw [← hlocal view, ← hlocal view', h]

variable [DecidableEq ι] (pp : PrettyPrinter ι) {m m' : Memory ι ν}

theorem layout_local (fuel fd td : ℕ) (short : Bool) :
    layout P pp m fuel (view.local P) fd td short = layout P pp m fuel view fd td short := by
  unfold layout
  rw [View.local_shape]
  unfold View.local
  cases arm P (P.shapes view.shape) <;> rfl

theorem unifiedLayout_local (fuel fd td : ℕ) (short : Bool) (path : Path) :
    unifiedLayout P pp fuel (view.local P) fd td short path
      = unifiedLayout P pp fuel view fd td short path := by
  unfold unifiedLayout
  rw [View.local_shape]
  unfold View.local
  cases harm : arm P (P.shapes view.shape) with
  | struct ty =>
    rw [unifiedArm_of_arm_struct harm]
    rfl
  | enum ty =>
    rw [unifiedArm_of_arm_enum harm]
    rfl
  | _ => rfl

variable (m') in
omit [DecidableEq ι] in
theorem visibleIndices_congr {fields : List (Field ι)}
    (h : ∀ f ∈ fields, f.skipSerializingIf = false) (peekField : ℕ → ν) :
    visibleIndices m fields peekField = visibleIndices m' fields peekField := by
  unfold visibleIndices
  apply List.filter_congr
  intro e he
  have hf : e.1.skipSerializingIf = false := by
    apply h
    have hget : fields[e.2]? = some e.1 := List.mem_zipIdx_iff_getElem?.1 he
    exact List.mem_of_getElem? hget
  simp [shouldSkipSerializing, hf]

variable (m') in
omit [DecidableEq ι] in
theorem formatStructFields_congr {fields : List (Field ι)}
    (h : ∀ f ∈ fields, f.skipSerializingIf = false) (peekField : ℕ → ν) (fd td : ℕ)
    (short : Bool) :
    formatStructFields pp m fields peekField fd td short
      = formatStructFields pp m' fields peekField fd td short := by
  unfold formatStructFields
  rw [visibleIndices_congr m' h peekField]

omit [DecidableEq ι] in
theorem formatByte_congr {items l : List ν} (h : ∀ w ∈ items, (m.view w).byte = (m'.view w).byte)
    (hl : ∀ w ∈ l, w ∈ items) (start fd : ℕ) (short : Bool) :
    (l.zipIdx start).map (fun e => formatByte (ι := ι) pp m e.1 e.2 fd short)
      = (l.zipIdx start).map fun e => formatByte pp m' e.1 e.2 fd short := by
  apply List.map_congr_left
  intro e he
  have hmem : e.1 ∈ items := hl _ (List.fst_mem_of_mem_zipIdx he)
  simp only [formatByte, h e.1 hmem]

omit [DecidableEq ι] in
theorem formatByteList_congr {items : List ν}
    (h : ∀ w ∈ (match pp.exceeds items.length with
      | some max => items.take (max / 2) ++ items.drop (items.length - max / 2)
      | none => items), (m.view w).byte = (m'.view w).byte) (fd : ℕ) (short : Bool) :
    formatByteList (ι := ι) pp m items fd short = formatByteList pp m' items fd short := by
  unfold formatByteList
  cases hmax : pp.exceeds items.length with
  | none =>
    simp only [hmax] at h
    simp only [formatByte_congr pp h fun w hw => hw]
  | some max =>
    simp only [hmax] at h
    simp only [formatByte_congr pp h fun w hw => List.mem_append_left _ hw,
      formatByte_congr pp h fun w hw => List.mem_append_right _ hw]

theorem layout_memory_congr (hskip : NoSkipPredicates P.shapes ν)
    (hbytes : ∀ w ∈ shownBytes P pp view, (m.view w).byte = (m'.view w).byte) (fuel fd td : ℕ)
    (short : Bool) :
    layout P pp m fuel view fd td short = layout P pp m' fuel view fd td short := by
  unfold layout
  cases harm : arm P (P.shapes view.shape) with
  | struct ty =>
    have hfields := hskip view ty (data_of_struct (ty_of_arm_struct harm))
    simp only [formatStruct, formatStructFields_congr pp m' hfields]
  | enum ty =>
    simp only [formatEnum]
    cases hvar : view.activeVariant.bind (ty.variants[·]?) with
    | none => rfl
    | some variant =>
      have hfields := hskip view variant.data (data_of_enum (ty_of_arm_enum harm) hvar)
      simp only [formatStructFields_congr pp m' hfields]
  | listLike elem =>
    simp only [shownBytes, harm] at hbytes
    simp only [formatListLike]
    split
    · rfl
    · split
      · next hbyteList =>
        rw [if_pos hbyteList] at hbytes
        rw [formatByteList_congr pp hbytes]
      · rfl
  | _ => rfl

theorem layout_congr (hskip : NoSkipPredicates P.shapes ν)
    (hlocal : view.local P = view'.local P)
    (hbytes : ∀ w ∈ shownBytes P pp view, (m.view w).byte = (m'.view w).byte) (fuel fd td : ℕ)
    (short : Bool) :
    layout P pp m fuel view fd td short = layout P pp m' fuel view' fd td short := by
  rw [layout_memory_congr pp hskip hbytes, ← layout_local, hlocal, layout_local]

end Local

section Agreement

variable {P : Program ι ν} {m m' : Memory ι ν} {v : ν}

theorem SameAnswer.shape (h : SameAnswer P m m' (.view v)) :
    (m.view v).shape = (m'.view v).shape := by
  rw [← View.local_shape (P := P), h, View.local_shape]

theorem SameAnswer.borrowInner (h : SameAnswer P m m' (.view v)) :
    borrowInner P m v = borrowInner P m' v := by
  have hpointee : (m.view v).pointee = (m'.view v).pointee := by
    rw [← View.local_pointee (P := P), h, View.local_pointee]
  simp only [Pretty.borrowInner, h.shape, hpointee]

theorem SameAnswer.lookThrough (h : SameAnswer P m m' (.view v)) :
    lookThrough P m v = lookThrough P m' v := by
  have hinner : (m.view v).inner = (m'.view v).inner := by
    rw [← View.local_inner (P := P), h, View.local_inner]
  simp only [Pretty.lookThrough, tryBorrowInner, h.borrowInner, h.shape, hinner]

variable [DecidableEq ι] {pp : PrettyPrinter ι} {root : Site ν} {mode : Mode}

theorem derefPointers_congr (hag : AgreeOn P m m' (Asked P pp m root)) (fuel : ℕ)
    (hv : ReflTransGen (Step P pp m) root (mode, v)) :
    derefPointers P m fuel v = derefPointers P m' fuel v ∧
      ∀ w, derefPointers P m fuel v = some w → ReflTransGen (Step P pp m) root (mode, w) := by
  induction fuel generalizing v with
  | zero => exact ⟨rfl, fun w h => by cases h⟩
  | succ fuel ih =>
    simp only [derefPointers, ← SameAnswer.borrowInner (hag _ (.view hv))]
    cases hb : borrowInner P m v with
    | none =>
      refine ⟨rfl, fun w h => ?_⟩
      cases h
      exact hv
    | some x => exact ih (hv.tail (.through (lookThrough_of_borrowInner hb)))

theorem innermostPeek_congr (hag : AgreeOn P m m' (Asked P pp m root)) (fuel : ℕ)
    (hv : ReflTransGen (Step P pp m) root (mode, v)) :
    innermostPeek P m fuel v = innermostPeek P m' fuel v ∧
      ∀ w, innermostPeek P m fuel v = some w →
        ReflTransGen (Step P pp m) root (mode, w) ∧ lookThrough P m w = none := by
  induction fuel generalizing v with
  | zero => exact ⟨rfl, fun w h => by cases h⟩
  | succ fuel ih =>
    simp only [innermostPeek, ← SameAnswer.lookThrough (hag _ (.view hv))]
    cases hb : lookThrough P m v with
    | none =>
      refine ⟨rfl, fun w h => ?_⟩
      cases h
      exact ⟨hv, hb⟩
    | some x => exact ih (hv.tail (.through hb))

theorem formatCall_congr (hag : AgreeOn P m m' (Asked P pp m root)) {x : Site ν}
    (hx : ReflTransGen (Step P pp m) root x) (hlook : lookThrough P m x.2 = none)
    {fmt fmt' : Formatter ν} {c : Call ι ν} (hc : (mode, c.subject) ∈ siteSubjects P pp m x)
    (hfmt : ∀ w, ReflTransGen (Step P pp m) root (mode, w) →
      fmt w c.formatDepth c.typeDepth c.short = fmt' w c.formatDepth c.typeDepth c.short) :
    formatCall P m fmt c = formatCall P m' fmt' c := by
  obtain ⟨xmode, xv⟩ := x
  have htarget : ∀ w, Subject.target P m c.subject = some w →
      ReflTransGen (Step P pp m) root (mode, w) :=
    fun w hw => hx.tail (.part hlook hc hw)
  unfold formatCall
  simp only [Subject.target, Call.subject] at htarget
  rw [Call.subject] at hc
  cases hp : c.proxy with
  | none =>
    simp only [hp] at htarget
    exact hfmt _ (htarget _ rfl)
  | some p =>
    simp only [hp] at htarget hc
    dsimp only
    split
    · next hsized =>
      have hconv : m.convertOut c.value p = m'.convertOut c.value p :=
        hag _ (.convert hx hlook hc hsized)
      rw [← hconv]
      cases hres : m.convertOut c.value p with
      | error msg => rfl
      | ok w => exact hfmt w (htarget w (by rw [if_pos hsized, hres]; rfl))
    · rfl

theorem runSpanPiece_congr (hag : AgreeOn P m m' (Asked P pp m root)) {x : Site ν}
    (hx : ReflTransGen (Step P pp m) root x) (hlook : lookThrough P m x.2 = none)
    {fmt fmt' : Path → Formatter ν} {key key' : ν → Print ν String} {p : SpanPiece ι ν}
    (hp : ∀ s ∈ p.subjects, s ∈ siteSubjects P pp m x)
    (hfmt : ∀ path w fd td short, ReflTransGen (Step P pp m) root (.spanned, w) →
      fmt path w fd td short = fmt' path w fd td short)
    (hkey : ∀ w, ReflTransGen (Step P pp m) root (.plain, w) → key w = key' w) :
    runSpanPiece P m fmt key p = runSpanPiece P m' fmt' key' p := by
  have hcall (c : Call ι ν) (hc : (Mode.spanned, c.subject) ∈ p.subjects) (path : Path) :
      formatCall P m (fmt path) c = formatCall P m' (fmt' path) c :=
    formatCall_congr hag hx hlook (hp _ hc) fun w hw => hfmt path w _ _ _ hw
  cases p with
  | text s => rfl
  | call path c =>
    exact hcall c (List.mem_singleton_self _) path
  | elem path c =>
    simp only [runSpanPiece, hcall c (List.mem_singleton_self _) path]
  | field path name c =>
    simp only [runSpanPiece, hcall c (List.mem_singleton_self _) path]
  | entry path k value =>
    have hplain := hp (.plain, direct k.value) (by simp [SpanPiece.subjects])
    have hk := hkey k.value (hx.tail (.part hlook hplain rfl))
    simp only [runSpanPiece, hk, hcall k (by simp [SpanPiece.subjects]),
      hcall value (by simp [SpanPiece.subjects])]

theorem pieces_congr (hskip : NoSkipPredicates P.shapes ν)
    (hag : AgreeOn P m m' (Asked P pp m root))
    (hv : ReflTransGen (Step P pp m) root (.plain, v)) (hlook : lookThrough P m v = none)
    (fuel fd td : ℕ) (short : Bool) :
    pieces P pp m fuel v fd td short = pieces P pp m' fuel v fd td short := by
  unfold pieces
  rw [← SameAnswer.shape (hag _ (.view hv))]
  cases hproxy : (P.shapes (m.view v).shape).proxy with
  | some p => rfl
  | none =>
    have hbytes : ∀ w ∈ shownBytes P pp (m.view v), (m.view w).byte = (m'.view w).byte :=
      fun w hw => byte_eq_of_local_eq P (hag _ (.byte hv hlook hproxy hw))
    exact layout_congr pp hskip (hag _ (.view hv)) hbytes fuel fd td short

theorem unifiedPieces_congr (hag : AgreeOn P m m' (Asked P pp m root))
    (hv : ReflTransGen (Step P pp m) root (mode, v)) (fuel fd td : ℕ) (short : Bool)
    (path : Path) :
    unifiedPieces P pp m fuel v fd td short path
      = unifiedPieces P pp m' fuel v fd td short path := by
  have hsame : SameAnswer P m m' (.view v) := hag _ (.view hv)
  unfold unifiedPieces
  rw [← hsame.shape]
  cases (P.shapes (m.view v).shape).proxy with
  | some p => rfl
  | none =>
    have hlocal : (m.view v).local P = (m'.view v).local P := hsame
    dsimp only
    rw [← unifiedLayout_local, hlocal, unifiedLayout_local]

variable [DecidableEq ν]

theorem formatPeekInternal_congr (hskip : NoSkipPredicates P.shapes ν)
    (hag : AgreeOn P m m' (Asked P pp m root)) (fuel : ℕ) (above : List ν)
    (hv : ReflTransGen (Step P pp m) root (.plain, v)) (fd td : ℕ) (short : Bool) :
    formatPeekInternal P pp m fuel above v fd td short
      = formatPeekInternal P pp m' fuel above v fd td short := by
  induction fuel generalizing above v fd td short with
  | zero => rfl
  | succ fuel ih =>
    obtain ⟨hderef, hderefReached⟩ := derefPointers_congr hag fuel hv
    simp only [formatPeekInternal, ← hderef]
    apply lift_bind_congr
    intro w hw
    obtain ⟨hpeek, hpeekReached⟩ := innermostPeek_congr hag fuel (hderefReached w hw)
    rw [← hpeek]
    apply lift_bind_congr
    intro u hu
    obtain ⟨hur, hlook⟩ := hpeekReached u hu
    have htext : cycleText P pp m u = cycleText P pp m' u := by
      funext depth
      simp only [cycleText, SameAnswer.shape (hag _ (.view hur))]
    rw [htext, ← pieces_congr hskip hag hur hlook fuel fd td short]
    apply congrArg
    apply lift_bind_congr
    intro ps hps
    apply forM_congr
    intro p hp
    cases p with
    | text s => rfl
    | call c =>
      apply formatCall_congr hag hur hlook
      · apply List.mem_map_of_mem
        rw [← subjects_pieces P pp m hps]
        exact List.mem_filterMap.2 ⟨_, hp, rfl⟩
      · intro x hx
        exact ih _ hx _ _ _

theorem formatKey_congr (hskip : NoSkipPredicates P.shapes ν)
    (hag : AgreeOn P m m' (Asked P pp m root)) (fuel : ℕ) (above : List ν)
    (hv : ReflTransGen (Step P pp m) root (.plain, v)) :
    formatKey P pp m fuel above v = formatKey P pp m' fuel above v := by
  unfold formatKey
  rw [formatPeekInternal_congr hskip hag fuel above hv]

theorem formatUnified_congr (hskip : NoSkipPredicates P.shapes ν)
    (hag : AgreeOn P m m' (Asked P pp m root)) (fuel : ℕ) (above : List ν) (path : Path)
    (hv : ReflTransGen (Step P pp m) root (.spanned, v)) (fd td : ℕ) (short : Bool) :
    formatUnified P pp m fuel above path v fd td short
      = formatUnified P pp m' fuel above path v fd td short := by
  induction fuel generalizing above path v fd td short with
  | zero => rfl
  | succ fuel ih =>
    obtain ⟨hderef, hderefReached⟩ := derefPointers_congr hag fuel hv
    simp only [formatUnified, ← hderef]
    apply lift_bind_congr
    intro w hw
    obtain ⟨hpeek, hpeekReached⟩ := innermostPeek_congr hag fuel (hderefReached w hw)
    rw [← hpeek]
    apply lift_bind_congr
    intro u hu
    obtain ⟨hur, hlook⟩ := hpeekReached u hu
    have htext : unifiedCycleText P m u = unifiedCycleText P m' u := by
      funext depth
      simp only [unifiedCycleText, SameAnswer.shape (hag _ (.view hur))]
    rw [htext, ← unifiedPieces_congr hag hur fuel fd td short path]
    refine congrArg (fun body : Print ν Unit =>
      spanOf (guarded above u td (unifiedCycleText P m' u) body) >>= recordSpan path) ?_
    apply lift_bind_congr
    intro ps hps
    apply forM_congr
    intro p hp
    apply runSpanPiece_congr hag hur hlook
    · intro s hs
      show s ∈ unifiedSubjects P m u
      rw [← spanSubjects_unifiedPieces P pp m hps]
      exact List.mem_flatMap.2 ⟨p, hp, hs⟩
    · intro path w fd td short hw
      exact ih _ path hw fd td short
    · intro w hw
      exact formatKey_congr hskip hag fuel _ hw

end Agreement

section EntryPoints

variable [DecidableEq ι] [DecidableEq ν]
variable (P : Program ι ν) (pp : PrettyPrinter ι) (m m' : Memory ι ν)

/-- What an entry point returns: the text, and the spans where it records any. -/
def EntryPoint.run (e : EntryPoint) (fuel : ℕ) (root : ν) :
    Option (String × (Path → Option FieldSpan)) :=
  match e with
  | .format | .formatPeek =>
    (Pretty.formatPeek P pp m fuel root).map fun text => (text, fun _ => none)
  | .formatPeekWithSpans => Pretty.formatPeekWithSpans P pp m fuel root

/-- The values differ only inside sensitive fields. -/
def PublicPartsAgree (root : ν) : Prop :=
  AgreeOn P m m' (PublicRead P.shapes m root)

/-- The values agree as well in what the entry point asks of the insides of sensitive fields. -/
def EnteredPartsAgree (e : EntryPoint) (root : ν) : Prop :=
  AgreeOn P m m' fun r => Asked P (e.printer pp) m (e.mode, root) r ∧ ¬PublicRead P.shapes m root r

end EntryPoints

section Account

inductive AccountType
  | login
  | token
  | string
  | u8
  | address
  deriving DecidableEq

inductive AccountValue
  | login
  | user
  | token
  | secret
  deriving DecidableEq

/-- `struct Login { user: String, #[facet(sensitive)] password: String,
#[facet(skip_serializing)] token: Token }` and `struct Token(#[facet(sensitive)] String)`. -/
def accountProgram : Program AccountType AccountValue where
  shapes
    | .login =>
      { ty := .user (.struct ⟨.struct, [{ name := "user", shape := .string },
          { name := "password", shape := .string, sensitive := true },
          { name := "token", shape := .token, skipSerializing := true }]⟩)
        «def» := .undefined
        typeName := "Login" }
    | .token =>
      { ty := .user (.struct ⟨.tupleStruct, [{ name := "0", shape := .string, sensitive := true }]⟩)
        «def» := .undefined
        typeName := "Token" }
    | _ => { ty := .user .opaqueTy, «def» := .scalar }
  stringShape := .string
  u8Shape := .u8
  constPtrShape := .address
  valueId _ := "Login@0x1000"
  escapeDebug s := s

/-- The secret is the login's password and the token's only field. -/
def accountMemory (secret : String) : Memory AccountType AccountValue where
  view
    | .login => { shape := .login, field := fun i => [.user, .secret].getD i .token }
    | .token => { shape := .token, field := fun _ => .secret }
    | .user => { shape := .string, field := fun _ => .user, str := "ferris" }
    | .secret => { shape := .string, field := fun _ => .secret, str := secret }
  convertOut _ _ := .error ""

theorem account_noSkipPredicates : NoSkipPredicates accountProgram.shapes AccountValue := by
  intro view ty hty f hf
  obtain ⟨shape, field⟩ := view
  cases shape <;> simp only [View.data, accountProgram] at hty <;> cases hty
  · simp only [List.mem_cons, List.not_mem_nil, or_false] at hf
    obtain rfl | rfl | rfl := hf <;> rfl
  · cases List.mem_singleton.1 hf
    rfl

theorem account_part {secret : String} {v w : AccountValue} :
    ¬((accountMemory secret).view v).Part w := by
  intro h
  cases v <;> cases h <;> simp_all [accountMemory]

theorem account_public {secret : String} {root : AccountValue} (hroot : root ≠ .secret)
    {r : Read AccountType AccountValue}
    (h : PublicRead accountProgram.shapes (accountMemory secret) root r) :
    ∃ v, v ≠ .secret ∧ r = .view v := by
  induction h with
  | root => exact ⟨root, hroot, rfl⟩
  | part _ hw => exact absurd hw account_part
  | @inner v w _ _ hw => cases v <;> cases hw
  | @proxy v p _ _ hp => cases v <;> cases hp
  | @field v i ty f _ ht hf hs _ _ =>
    cases v <;> cases ht
    · obtain _ | _ | _ | i := i
      · exact ⟨.user, by decide, rfl⟩
      · cases hf
        exact absurd rfl hs
      · exact ⟨.token, by decide, rfl⟩
      · cases hf
    · obtain _ | i := i <;> cases hf
      exact absurd rfl hs
  | @fieldProxy v i ty f p _ ht hf _ _ hp _ =>
    cases v <;> cases ht
    · obtain _ | _ | _ | i := i <;> cases hf <;> cases hp
    · obtain _ | i := i <;> cases hf
      cases hp
  | converted _ _ ih =>
    obtain ⟨v, -, hv⟩ := ih
    cases hv

theorem account_publicPartsAgree {secret secret' : String} {root : AccountValue}
    (hroot : root ≠ .secret) :
    PublicPartsAgree accountProgram (accountMemory secret) (accountMemory secret') root := by
  intro r hr
  obtain ⟨v, hv, rfl⟩ := account_public hroot hr
  cases v with
  | secret => exact absurd rfl hv
  | _ => rfl

/-- From the login `format` goes down to the user's name only. -/
theorem login_subjects {secret : String} {v : AccountValue} (hv : v = .login ∨ v = .user)
    {s : SiteSubject AccountType AccountValue}
    (hs : s ∈ siteSubjects accountProgram {} (accountMemory secret) (.plain, v)) :
    s = (.plain, .user, none) := by
  obtain rfl | rfl := hv
  · exact List.mem_singleton.1 hs
  · cases hs

theorem login_reached {secret : String} {x : Site AccountValue}
    (h : ReflTransGen (Step accountProgram {} (accountMemory secret)) (.plain, .login) x) :
    ∃ v, x = (.plain, v) ∧ (v = .login ∨ v = .user) := by
  induction h with
  | refl => exact ⟨.login, rfl, .inl rfl⟩
  | tail _ hstep ih =>
    obtain ⟨v, rfl, hv⟩ := ih
    cases hstep with
    | through hlook => cases v <;> cases hlook
    | part _ hs hw =>
      cases login_subjects hv hs
      cases hw
      exact ⟨.user, rfl, .inr rfl⟩

theorem login_asked {secret : String} {r : Read AccountType AccountValue}
    (h : Asked accountProgram {} (accountMemory secret) (.plain, .login) r) :
    r = .view .login ∨ r = .view .user := by
  cases h with
  | view hx =>
    obtain ⟨v, rfl, rfl | rfl⟩ := login_reached hx
    · exact .inl rfl
    · exact .inr rfl
  | @byte v w _ _ _ hw => cases v <;> cases hw
  | convert hx _ hs =>
    obtain ⟨v, rfl, hv⟩ := login_reached hx
    cases login_subjects hv hs

end Account

end Facet.Pretty
