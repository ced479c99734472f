import ByteRope.Proofs.Builder.Running
import ByteRope.Proofs.Rope.Comparing
import ByteRope.Proofs.Rope.Made
import ByteRope.Session

/-!
# What sessions hold

`Session.Holds may c session` says that the census `c` accounts for the session: its ropes are in
use and were made by the deeds that `may` allows, and so were the pieces of its builders.
`SessionM.WF` says that a computation leaves such a session whatever comes of it.
-/

namespace ByteRope

open Rope (Made Family)

variable {may : Deed → Prop} {c c' : Census} {α β : Type}

/-! ## Ropes and builders -/

/-- The deeds behind the trees of a builder. -/
def Deed.Building (may : Deed → Prop) (deed : Deed) : Prop :=
  may deed ∨ deed = .concat ∨ deed = .rebuild

theorem Rope.Made.family (hconcat : may .concat) (hrebuild : may .rebuild) : Family (Made may) where
  within h hn := h.of_within hn
  concat _ _ _ _ hl hr h := .concatenated hconcat hl hr h
  leaf h hleafed := .leafed hrebuild h hleafed
  rebuild h hl hr hrebuilt := .rebuilt hrebuild h hl hr hrebuilt

theorem Rope.Made.building {rope : Rope} (h : rope.Made may) : rope.Made (Deed.Building may) :=
  h.mono fun _ => .inl

/-- What builders do to ropes is nothing new where ropes are concatenated and rebuilt anyway. -/
theorem Rope.Made.of_building {rope : Rope} (hconcat : may .concat) (hrebuild : may .rebuild)
    (h : rope.Made (Deed.Building may)) : rope.Made may := by
  apply h.mono
  rintro deed (hdeed | rfl | rfl)
  exacts [hdeed, hconcat, hrebuild]

theorem Rope.Made.family_building : Family (Made (Deed.Building may)) :=
  Rope.Made.family (.inr (.inl rfl)) (.inr (.inr rfl))

/-- The builder grew out of ropes that were made by these deeds. -/
structure Builder.Sound (may : Deed → Prop) (c : Census) (builder : Builder) : Prop where
  ready : builder.Ready (Made (Deed.Building may)) c
  encoding : may (.scan builder.encoding)
  grown : ∃ pieces, (∀ piece ∈ pieces, piece.Made may) ∧
    Builder.Grown (Made (Deed.Building may)) builder.encoding builder.config pieces builder

/-- A builder of a session has a length that is a size. -/
structure Builder.Kept (may : Deed → Prop) (c : Census) (builder : Builder) : Prop
    extends builder.Sound may c where
  len : builder.len ≤ Size.max

/-- The census accounts for the session. -/
structure Session.Holds (may : Deed → Prop) (c : Census) (session : Session) : Prop where
  store : session.store = c.store
  ropes : ∀ {name rope}, session.ropes.get? name = some rope → c.live rope ∧ rope.Made may
  builders : ∀ {name builder}, session.builders.get? name = some builder → builder.Kept may c

theorem Builder.Sound.mono {builder : Builder} (h : builder.Sound may c) (hle : c ≤ c') :
    builder.Sound may c' :=
  ⟨h.ready.mono hle, h.encoding, h.grown⟩

theorem Builder.Kept.mono {builder : Builder} (h : builder.Kept may c) (hle : c ≤ c') :
    builder.Kept may c' :=
  ⟨h.toSound.mono hle, h.len⟩

namespace Registers

variable {registers : Registers α} {name other : String} {value found : α}

theorem get?_set_cases (h : (registers.set name value).get? other = some found) :
    found = value ∨ registers.get? other = some found := by
  by_cases heq : other = name
  · rw [heq, get?_set_self] at h
    exact .inl (Option.some.inj h).symm
  · exact .inr (get?_set_of_ne registers heq value ▸ h)

theorem get?_of_get?_erase (h : (registers.erase name).get? other = some found) :
    registers.get? other = some found := by
  by_cases heq : other = name
  · rw [heq, get?_erase_self] at h
    cases h
  · rwa [get?_erase_of_ne registers heq] at h

end Registers

namespace Session.Holds

variable {session : Session}

theorem mono (h : session.Holds may c) (hle : c ≤ c') :
    Session.Holds may c' { session with store := c'.store } where
  store := rfl
  ropes hget := ⟨hle.live (h.ropes hget).1, (h.ropes hget).2⟩
  builders hget := (h.builders hget).mono hle

theorem setRope (h : session.Holds may c) {rope : Rope} (hlive : c.live rope)
    (hmade : rope.Made may) (name : String) :
    Session.Holds may c { session with ropes := session.ropes.set name rope } where
  store := h.store
  ropes hget := by
    rcases Registers.get?_set_cases hget with rfl | hold
    · exact ⟨hlive, hmade⟩
    · exact h.ropes hold
  builders := h.builders

theorem eraseRope (h : session.Holds may c) (name : String) :
    Session.Holds may c { session with ropes := session.ropes.erase name } where
  store := h.store
  ropes hget := h.ropes (Registers.get?_of_get?_erase hget)
  builders := h.builders

theorem setBuilder (h : session.Holds may c) {builder : Builder} (hkept : builder.Kept may c)
    (name : String) :
    Session.Holds may c { session with builders := session.builders.set name builder } where
  store := h.store
  ropes := h.ropes
  builders hget := by
    rcases Registers.get?_set_cases hget with rfl | hold
    · exact hkept
    · exact h.builders hold

theorem eraseBuilder (h : session.Holds may c) (name : String) :
    Session.Holds may c { session with builders := session.builders.erase name } where
  store := h.store
  ropes := h.ropes
  builders hget := h.builders (Registers.get?_of_get?_erase hget)

/-- The events can be taken away. -/
theorem quiet (h : session.Holds may c) :
    ∃ c', c ≤ c' ∧
      Session.Holds may c' { session with store := { session.store with events := #[] } } := by
  refine ⟨c.quiet, Census.le_quiet, ?_, fun hget => h.ropes hget, fun hget => ?_⟩
  · rw [h.store]
    rfl
  · exact (h.builders hget).mono Census.le_quiet

end Session.Holds

/-! ## Computations on sessions -/

namespace SessionM

theorem run_bind (m : SessionM α) (f : α → SessionM β) (session : Session) :
    (m >>= f) session = match m session with
      | .ok a session' => f a session'
      | .error failure session' => .error failure session' := by
  change EStateM.bind m f session = _
  unfold EStateM.bind
  cases m session <;> rfl

theorem run_get_bind (f : Session → SessionM α) (session : Session) :
    ((get : SessionM Session) >>= f) session = f session session := rfl

theorem run_builder (name : String) (session : Session) :
    SessionM.builder name session = match session.builders.get? name with
      | some builder => .ok builder session
      | none => .error (.unknownBuilder name) session := by
  rw [SessionM.builder, run_get_bind]
  cases session.builders.get? name <;> rfl

theorem run_rope (name : String) (session : Session) :
    SessionM.rope name session = match session.ropes.get? name with
      | some rope => .ok rope session
      | none => .error (.unknownRope name) session := by
  rw [SessionM.rope, run_get_bind]
  cases session.ropes.get? name <;> rfl

/-- From every session that the census accounts for, the computation ends in one that a census
going on from it accounts for, and a value is as `Q` says. -/
def WF (may : Deed → Prop) (c : Census) (m : SessionM α) (Q : α → Census → Prop) : Prop :=
  ∀ session : Session, session.Holds may c →
    match m session with
    | .ok a session' => ∃ c', c ≤ c' ∧ session'.Holds may c' ∧ Q a c'
    | .error _ session' => ∃ c', c ≤ c' ∧ session'.Holds may c'

namespace WF

variable {m : SessionM α} {f : α → SessionM β} {Q : α → Census → Prop} {R : β → Census → Prop}

theorem pure {a : α} (h : Q a c) : WF may c (pure a) Q := fun _ hs => ⟨c, c.le_refl, hs, h⟩

theorem throw {failure : Failure} : WF may c (throw failure : SessionM α) Q :=
  fun _ hs => ⟨c, c.le_refl, hs⟩

theorem mono {Q' : α → Census → Prop} (h : WF may c m Q) (hq : ∀ a c', c ≤ c' → Q a c' → Q' a c') :
    WF may c m Q' := by
  intro session hs
  have h := h session hs
  split at h
  · obtain ⟨c', hle, hs', hQ⟩ := h
    exact ⟨c', hle, hs', hq _ _ hle hQ⟩
  · exact h

theorem bind (hm : WF may c m Q) (hf : ∀ a c', c ≤ c' → Q a c' → WF may c' (f a) R) :
    WF may c (m >>= f) R := by
  intro session hs
  change match EStateM.bind m f session with
    | .ok b session' => ∃ c', c ≤ c' ∧ session'.Holds may c' ∧ R b c'
    | .error _ session' => ∃ c', c ≤ c' ∧ session'.Holds may c'
  have hm := hm session hs
  unfold EStateM.bind
  cases hr : m session with
  | error failure session' => simpa only [hr] using hm
  | ok a session' =>
    simp only [hr] at hm ⊢
    obtain ⟨c', hle, hs', hQ⟩ := hm
    have hf := hf a c' hle hQ session' hs'
    split at hf
    next =>
      obtain ⟨c'', hle', hs'', hR⟩ := hf
      exact ⟨c'', Census.le_trans hle hle', hs'', hR⟩
    next =>
      obtain ⟨c'', hle', hs''⟩ := hf
      exact ⟨c'', Census.le_trans hle hle', hs''⟩

theorem onStore {computation : RopeM α} {E : Fault → Prop} (h : RopeM.WF c computation Q E) :
    WF may c (onStore computation) Q := by
  rintro ⟨store, ropes, builders⟩ hs
  cases hs.store
  unfold RopeM.WF at h
  unfold SessionM.onStore
  cases hr : computation c.store with
  | ok a store =>
    simp only [hr] at h ⊢
    obtain ⟨c', rfl, hle, hQ⟩ := h
    exact ⟨c', hle, hs.mono hle, hQ⟩
  | error fault store =>
    simp only [hr] at h ⊢
    obtain ⟨c', rfl, hle, -⟩ := h
    exact ⟨c', hle, hs.mono hle⟩

/-- An answer to a question changes no names. -/
theorem answer {computation : RopeM α} {Q : α → Census → Prop} {E : Fault → Prop}
    (h : RopeM.WF c computation Q E) (reply : α → β) :
    WF may c (SessionM.onStore computation >>= fun a => Pure.pure (reply a)) fun _ _ => True :=
  (onStore h).bind fun _ _ _ _ => pure trivial

theorem answer_eq {computation : RopeM α} {a : α} (h : computation c.store = .ok a c.store)
    (reply : α → β) :
    WF may c (SessionM.onStore computation >>= fun a => Pure.pure (reply a)) fun _ _ => True :=
  answer (RopeM.WF.of_eq (Q := fun _ _ => True) (E := fun _ => True) h trivial) reply

theorem answer_error {computation : RopeM α} {fault : Fault}
    (h : computation c.store = .error fault c.store) (reply : α → β) :
    WF may c (SessionM.onStore computation >>= fun a => Pure.pure (reply a)) fun _ _ => True :=
  answer (RopeM.WF.of_error (Q := fun _ _ => True) (E := fun _ => True) h trivial) reply

theorem set {session : Session} (h : session.Holds may c) :
    WF may c (set session) fun _ _ => True :=
  fun _ _ => ⟨c, c.le_refl, h, trivial⟩

theorem careful {computation : RopeM (Except Refusal α)} {E : Fault → Prop}
    (h : RopeM.WF c computation (fun result c' => ∀ a, result = .ok a → Q a c') E) :
    WF may c (careful computation) Q := by
  apply (onStore h).bind
  rintro (refusal | a) c' - hresult
  · exact throw
  · exact pure (hresult a rfl)

theorem get {f : Session → SessionM β}
    (h : ∀ session : Session, session.Holds may c → WF may c (f session) R) :
    WF may c (get >>= f) R :=
  fun session hs => h session hs session hs

theorem rope (name : String) :
    WF may c (rope name) fun rope c' => c'.live rope ∧ rope.Made may := by
  refine get fun session hs => ?_
  split
  next rope hget => exact pure (hs.ropes hget)
  next => exact throw

theorem builder (name : String) :
    WF may c (builder name) fun builder c' => builder.Kept may c' := by
  refine get fun session hs => ?_
  split
  next builder hget => exact pure (hs.builders hget)
  next => exact throw

theorem keepRope {name : String} {rope : Rope} (hlive : c.live rope) (hmade : rope.Made may) :
    WF may c (keepRope name rope) fun _ _ => True :=
  fun _ hs => ⟨c, c.le_refl, hs.setRope hlive hmade name, trivial⟩

theorem keepBuilder {name : String} {builder : Builder} (hkept : builder.Kept may c) :
    WF may c (keepBuilder name builder) fun _ _ => True :=
  fun _ hs => ⟨c, c.le_refl, hs.setBuilder hkept name, trivial⟩

theorem forgetBuilder {name : String} : WF may c (forgetBuilder name) fun _ _ => True :=
  fun _ hs => ⟨c, c.le_refl, hs.eraseBuilder name, trivial⟩

theorem takeBuilder (name : String) :
    WF may c (takeBuilder name) fun builder c' => builder.Kept may c' :=
  (builder name).bind fun _ _ _ hkept => forgetBuilder.bind fun _ _ hle _ => pure (hkept.mono hle)

end WF

end SessionM

end ByteRope
