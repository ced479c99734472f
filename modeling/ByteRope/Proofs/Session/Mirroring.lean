import ByteRope.Proofs.Rope.Soundness
import ByteRope.Proofs.Session.Reachable

/-!
# Careful forms

Single octets, slices and transitions have a careful form, which hands a refusal back, and a plain
form, in which a refusal is a fault. In every reachable session the careful form answers, and the
plain form ends as it does (`Session.Reachable.mirrors`). The transition of ASCII-only ropes is
guarded beyond its refusal: an encoding without ASCII-only content, or a leaf that the guard finds
to be marked wrongly, ends both forms with the same fault.
-/

namespace ByteRope

variable {may : Deed → Prop} {c : Census} {session : Session} {name : String} {rope : Rope}

namespace RopeM

variable {α : Type} {careful : RopeM (Except Refusal α)} {store : Store}

/-- The careful form answers. With a value the plain form ends with that value in the same store,
and with a refusal it ends with that refusal as its fault. -/
inductive Mirrors (plain : RopeM α) (careful : RopeM (Except Refusal α)) (store : Store) : Prop
  | value {a : α} {store' : Store} : careful store = .ok (.ok a) store' →
    plain store = .ok a store' → Mirrors plain careful store
  | refusal {refusal : Refusal} {store' : Store} : careful store = .ok (.error refusal) store' →
    plain store = .error (.refused refusal) store' → Mirrors plain careful store

namespace Mirrors

variable {β : Type} {plain : RopeM α}

theorem exists_value (h : plain.Mirrors careful store) {f : α → β} {b : β}
    (hcareful : (careful.outcome store).map (Except.map f) = .ok (.ok b)) :
    ∃ a store', careful store = .ok (.ok a) store' ∧ plain store = .ok a store' ∧ f a = b := by
  cases h with
  | @value a store' hrun hplain =>
    rw [outcome, hrun] at hcareful
    exact ⟨a, store', hrun, hplain, Except.ok.inj (Except.ok.inj hcareful)⟩
  | refusal hrun =>
    rw [outcome, hrun] at hcareful
    cases Except.ok.inj hcareful

theorem exists_refusal (h : plain.Mirrors careful store) {refusal : Refusal}
    (hcareful : careful.outcome store = .ok (.error refusal)) :
    ∃ store', careful store = .ok (.error refusal) store' ∧
      plain store = .error (.refused refusal) store' := by
  cases h with
  | value hrun =>
    rw [outcome, hrun] at hcareful
    cases Except.ok.inj hcareful
  | @refusal found store' hrun hplain =>
    rw [outcome, hrun] at hcareful
    cases hcareful
    exact ⟨store', hrun, hplain⟩

end Mirrors

theorem mirrors_insist (h : ∃ answer store', careful store = .ok answer store') :
    Mirrors (insist careful) careful store := by
  obtain ⟨answer, store', hcareful⟩ := h
  cases answer with
  | ok a => exact .value hcareful (run_bind hcareful _)
  | error refusal => exact .refusal hcareful (run_bind hcareful _)

end RopeM

namespace Rope

/-- The careful forms of the operations on a rope answer, and the plain forms do as they do. The
exceptions are those of an ASCII-only rope that is to change its encoding. -/
structure Mirrored (rope : Rope) (store : Store) : Prop where
  octet : ∀ index,
    (∃ octet, rope.byte? index store = .ok (some octet) store ∧
      rope.byteAt index store = .ok octet store) ∨
    (rope.byte? index store = .ok none store ∧
      rope.byteAt index store = .error (.refused (.indexOutOfBounds index rope.byteLen)) store)
  slice : ∀ offset len, (rope.slice offset len).Mirrors (rope.slice? offset len) store
  binary : rope.toBinary.Mirrors rope.toBinary? store
  sevenBit : ∀ encoding : Encoding,
    (rope.range = .asciiOnly → encoding.isAsciiCompatible = true ∧ ¬rope.Mislabelled) →
    (rope.toSevenBit encoding).Mirrors (rope.toSevenBit? encoding) store
  incompatible : ∀ encoding : Encoding,
    rope.range = .asciiOnly → encoding.isAsciiCompatible = false →
    rope.toSevenBit? encoding store = .error (.cannotCarryAscii encoding) store ∧
      rope.toSevenBit encoding store = .error (.cannotCarryAscii encoding) store
  mislabelled : ∀ encoding : Encoding,
    rope.Mislabelled → encoding.isAsciiCompatible = true →
    rope.toSevenBit? encoding store = .error .notAsciiOnly store ∧
      rope.toSevenBit encoding store = .error .notAsciiOnly store

theorem mirrored_of_live (h : c.live rope) : rope.Mirrored c.store where
  octet index := by
    rcases Nat.lt_or_ge index rope.byteLen with hlt | hge
    · have hbyte := List.getElem?_eq_getElem ((c.wf h).length_content.symm ▸ hlt)
      exact .inl ⟨_, (byte?_eq h index).trans (by rw [hbyte]), byteAt_eq h hbyte⟩
    · have hnone := List.getElem?_eq_none ((c.wf h).length_content.symm ▸ hge)
      exact .inr ⟨(byte?_eq h index).trans (by rw [hnone]), byteAt_of_le h hge⟩
  slice _ _ := RopeM.mirrors_insist (wf_slice? h).succeeds
  binary := RopeM.mirrors_insist (wf_toBinary? h).succeeds
  sevenBit _ hc := RopeM.mirrors_insist (toSevenBit?_returns h hc)
  incompatible _ hrange hc :=
    have hcareful := toSevenBit?_of_incompatible hrange hc _
    ⟨hcareful, RopeM.insist_of_error hcareful⟩
  mislabelled _ hl hc :=
    have hcareful := toSevenBit?_of_mislabelled hl hc _
    ⟨hcareful, RopeM.insist_of_error hcareful⟩

theorem Mirrored.byteAt_of_some {store : Store} (h : rope.Mirrored store) {index : Nat}
    {octet : UInt8} (hbyte : (rope.byte? index).outcome store = .ok (some octet)) :
    rope.byteAt index store = .ok octet store := by
  rcases h.octet index with ⟨found, hfound, hplain⟩ | ⟨hfound, -⟩
  · rw [RopeM.outcome, hfound] at hbyte
    cases hbyte
    exact hplain
  · rw [RopeM.outcome, hfound] at hbyte
    cases hbyte

theorem Mirrored.byteAt_of_none {store : Store} (h : rope.Mirrored store) {index : Nat}
    (hbyte : (rope.byte? index).outcome store = .ok none) :
    rope.byteAt index store = .error (.refused (.indexOutOfBounds index rope.byteLen)) store := by
  rcases h.octet index with ⟨_, hfound, -⟩ | ⟨-, hplain⟩
  · rw [RopeM.outcome, hfound] at hbyte
    cases hbyte
  · exact hplain

theorem SoundTags.not_mislabelled (h : rope.SoundTags) : ¬rope.Mislabelled := by
  cases rope with
  | leaf id kind encoding charLen bytes =>
    rintro ⟨rfl, hother⟩
    have hascii : bytes.isAscii = true := Bytes.isAscii_iff.mpr (h.ascii rfl).2.1
    rw [hascii] at hother
    cases hother
  | join | view => exact fun hfalse => hfalse

end Rope

/-- In every reachable session the careful forms answer and the plain forms mirror them, save for
ASCII-only ropes that are to change to an encoding without such content, or that are leaves marked
wrongly. If no caller gives tags to joins or views, no leaf is. -/
theorem Session.Reachable.mirrors (h : session.Reachable may)
    (hget : session.ropes.get? name = some rope) :
    rope.Mirrored session.store ∧ (¬may .tag → ¬rope.Mislabelled) := by
  obtain ⟨c, hholds⟩ := h.holds
  obtain ⟨hlive, hmade⟩ := hholds.ropes hget
  rw [hholds.store]
  refine ⟨Rope.mirrored_of_live hlive, fun htag => ?_⟩
  exact (hmade.induct (Rope.passes_soundTags htag)).not_mislabelled

/-- A join of a letter of two octets and one of one octet is asked for its last octet and the one
after it, for a slice that it has and one that it has not, and to become binary, which the
ASCII-only letter may not. That one can be changed to another ASCII-compatible encoding, and not to
UTF-16. -/
theorem mirrors_join :
    ∃ (session : Session) (join letter : Rope), session.Reachable (· ≠ .tag) ∧
      session.ropes.get? "r" = some join ∧ session.ropes.get? "a" = some letter ∧
      join.Mirrored session.store ∧ letter.Mirrored session.store ∧
      join.depth = 1 ∧ join.byteLen = 3 ∧
      join.byteAt 2 session.store = .ok 97 session.store ∧
      join.byteAt 3 session.store = .error (.refused (.indexOutOfBounds 3 3)) session.store ∧
      (∃ slice store, join.slice? 1 2 session.store = .ok (.ok slice) store ∧
        join.slice 1 2 session.store = .ok slice store ∧ slice.content = [0xa9, 97]) ∧
      (∃ store, join.slice? 2 2 session.store = .ok (.error (.rangeOutOfBounds 2 2 3)) store ∧
        join.slice 2 2 session.store = .error (.refused (.rangeOutOfBounds 2 2 3)) store) ∧
      (∃ binary store, join.toBinary? session.store = .ok (.ok binary) store ∧
        join.toBinary session.store = .ok binary store ∧ binary.tags = ⟨.binary, .valid, 3⟩) ∧
      (∃ store, letter.toBinary? session.store =
          .ok (.error (.illegalTransition .binary .asciiOnly)) store ∧
        letter.toBinary session.store =
          .error (.refused (.illegalTransition .binary .asciiOnly)) store) ∧
      (∃ latin store, letter.toSevenBit? .latin1 session.store = .ok (.ok latin) store ∧
        letter.toSevenBit .latin1 session.store = .ok latin store ∧
        latin.tags = ⟨.latin1, .asciiOnly, 1⟩) ∧
      letter.toSevenBit? .utf16le session.store =
        .error (.cannotCarryAscii .utf16le) session.store := by
  let letter : Rope := .leaf 1 .asciiOnly .utf8 1 #[97]
  let join : Rope :=
    .join 2 ⟨.utf8, .valid, 2⟩ 3 1 true (.leaf 0 .valid .utf8 1 #[0xc3, 0xa9]) letter
  let session : Session := Session.empty.performAll [
    .make (.text "é") (some "e"), .make (.text "a") (some "a"),
    .make (.concat "e" "a" .standard) (some "r")]
  have h : session.Reachable (· ≠ .tag) :=
    Session.Reachable.empty.performAll (by simp [Command.deeds, Recipe.deeds])
  have hjoin : session.ropes.get? "r" = some join := by decide +kernel
  have hletter : session.ropes.get? "a" = some letter := by decide +kernel
  obtain ⟨hmirrored, -⟩ := h.mirrors hjoin
  obtain ⟨hmirrored', hlabelled⟩ := h.mirrors hletter
  have hlatin : (letter.toSevenBit .latin1).Mirrors (letter.toSevenBit? .latin1) session.store :=
    hmirrored'.sevenBit .latin1 fun _ => ⟨rfl, hlabelled fun hne => hne rfl⟩
  exact ⟨session, join, letter, h, hjoin, hletter, hmirrored, hmirrored', rfl, rfl,
    hmirrored.byteAt_of_some (by decide +kernel), hmirrored.byteAt_of_none (by decide +kernel),
    (hmirrored.slice 1 2).exists_value (by decide +kernel),
    (hmirrored.slice 2 2).exists_refusal (by decide +kernel),
    hmirrored.binary.exists_value (by decide +kernel),
    hmirrored'.binary.exists_refusal (by decide +kernel),
    hlatin.exists_value (by decide +kernel), (hmirrored'.incompatible .utf16le rfl rfl).1⟩

/-- The careful transition does not always answer: it faults for an encoding without ASCII-only
content, and for a leaf that a builder has made of views with tags that are not so. -/
theorem not_forall_sevenBit :
    (¬∀ {session : Session}, (session.Reachable fun _ => True) → ∀ {name rope},
      session.ropes.get? name = some rope → ¬rope.Mislabelled → ∀ encoding,
      ∃ answer store, rope.toSevenBit? encoding session.store = .ok answer store) ∧
    ¬∀ {session : Session}, (session.Reachable fun _ => True) → ∀ {name rope},
      session.ropes.get? name = some rope → ∀ encoding, encoding.isAsciiCompatible = true →
      ∃ answer store, rope.toSevenBit? encoding session.store = .ok answer store := by
  let session : Session := Session.empty.performAll [
    .make (.text "a") (some "a"), .make (.bytes #[0xFF] .binary) (some "f"),
    .make (.taggedView "f" ⟨.usAscii, .asciiOnly, 1⟩ 0 1) (some "v"),
    .newBuilder "m" .usAscii { smallConcatBytes := 2 }, .pushRope "m" "v" 2,
    .make (.build "m") (some "l")]
  have h : session.Reachable fun _ => True :=
    Session.Reachable.empty.performAll fun _ _ _ _ => trivial
  have faults (encoding : Encoding) {name : String} {rope : Rope}
      (hget : session.ropes.get? name = some rope)
      (hfaults : (session.ropes.get? name).map (fun rope =>
        ((rope.toSevenBit? encoding).outcome session.store).toBool) = some false) :
      ¬∃ answer store, rope.toSevenBit? encoding session.store = .ok answer store := by
    rintro ⟨answer, store, hok⟩
    rw [hget, Option.map_some, RopeM.outcome, hok] at hfaults
    cases hfaults
  constructor
  · intro hall
    have hrope : (session.ropes.get? "a").map (fun rope => decide rope.Mislabelled) =
        some false := by
      decide +kernel
    obtain ⟨rope, hget, hlabelled⟩ := Option.map_eq_some_iff.mp hrope
    exact faults .utf16le hget (by decide +kernel)
      (hall h hget (of_decide_eq_false hlabelled) .utf16le)
  · intro hall
    have hrope : (session.ropes.get? "l").isSome = true := by decide +kernel
    obtain ⟨rope, hget⟩ := Option.isSome_iff_exists.mp hrope
    exact faults .utf8 hget (by decide +kernel) (hall h hget .utf8 rfl)

end ByteRope
