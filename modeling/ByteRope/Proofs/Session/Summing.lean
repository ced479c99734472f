import ByteRope.Proofs.Scanner.Cuts
import ByteRope.Proofs.Session.Balancing
import ByteRope.Proofs.Session.Interchange
import ByteRope.Proofs.Session.Mirroring
import ByteRope.Proofs.Session.Ranging
import ByteRope.Proofs.Session.Structure

/-!
# Sums of lengths

In sessions where no caller says tags or numbers of characters, no node has more characters than
octets, however its characters were counted, added up or replaced. So one rope after another is too
long only if the number of octets is no size, and no other operation on a rope takes a sum past the
largest size (`Session.Reachable.sums`).
-/

namespace ByteRope

variable {c : Census} {session : Session}

namespace Rope

variable {rope left right : Rope}

/-! ## Two ropes -/

/-- One rope after another can be had if the number of octets is a size, and is too long if it is
not. Wherever the sum of the octets is a size, so is the sum of the characters. -/
structure AddsUp (left right : Rope) (store : Store) : Prop where
  succeeds_iff : ∀ policy, (left.concat right policy).Succeeds store ↔
    left.byteLen + right.byteLen ≤ Size.max
  overflows_iff : ∀ policy, (left.concat right policy).outcome store = .error .sizeOverflow ↔
    Size.max < left.byteLen + right.byteLen
  chars : ∀ total, Size.add left.byteLen right.byteLen = .ok total →
    Size.add left.charLen right.charLen = .ok (left.charLen + right.charLen)

theorem addsUp_of_live (hlive : c.live left) (hlive' : c.live right) (hl : left.Checked)
    (hr : right.Checked) : left.AddsUp right c.store where
  succeeds_iff policy := (wf_concat_of_checked hlive hlive' hl hr).succeeds_iff
    (fun _ _ hresult => hresult.2.2) fun _ hover => Nat.not_le_of_lt hover.2
  overflows_iff policy := by
    have hconcat : RopeM.WF c (left.concat right policy) _
        (RopeM.Oversize (left.byteLen + right.byteLen)) := wf_concat_of_checked hlive hlive' hl hr
    constructor
    · intro houtcome
      exact (hconcat.of_outcome houtcome).2
    · intro hlt
      rcases hconcat.outcome with ⟨_, _, -, -, -, -, hle⟩ | ⟨fault, store, hrun, rfl, -⟩
      · exact absurd hle (Nat.not_le_of_lt hlt)
      · exact RopeM.outcome_eq_error_iff.mpr ⟨store, hrun⟩
  chars total htotal := by
    obtain ⟨hle, -⟩ := Size.add_eq_ok_iff.mp htotal
    exact Size.add_of_le (Nat.le_trans (Nat.add_le_add hl.charLen_le hr.charLen_le) hle)

/-! ## One rope -/

/-- The lengths of the rope are sizes, and so is every number that comes up on the way. A scanner
that reads a part of the content counts no more characters than octets, at no time and not when it
ends. Slices, resolving and transitions have no faults, or those that they have by their rules. The
pieces of the rope can be added up in any runs, and what can be in the way of rebalancing is a
buffer that would be too long or an ASCII-only root with too few characters, but no sum. -/
structure Measures (rope : Rope) (store : Store) : Prop where
  charLen_le : rope.charLen ≤ rope.byteLen
  byteLen_le : rope.byteLen ≤ Size.max
  scanner : ∀ encoding octets scanner, octets <:+: rope.content →
    Scanner.HasRead encoding octets scanner →
    scanner.chars ≤ scanner.finish.charLen ∧ scanner.finish.charLen ≤ octets.length ∧
      octets.length ≤ Size.max
  slice? : ∀ offset len, (rope.slice? offset len).Succeeds store
  slice : ∀ offset len fault, (rope.slice offset len).outcome store = .error fault →
    ∃ refusal, fault = .refused refusal
  resolve : rope.resolve.Succeeds store
  toBinary? : rope.toBinary?.Succeeds store
  toBinary : ∀ fault, rope.toBinary.outcome store = .error fault →
    ∃ refusal, fault = .refused refusal
  toSevenBit? : ∀ encoding fault, (rope.toSevenBit? encoding).outcome store = .error fault →
    fault = .cannotCarryAscii encoding
  toSevenBit : ∀ encoding fault, (rope.toSevenBit encoding).outcome store = .error fault →
    fault = .cannotCarryAscii encoding ∨ ∃ refusal, fault = .refused refusal
  runs : ∀ run, run <:+: rope.parts →
    (run.map settledCharLen).sum ≤ (run.map byteLen).sum ∧ (run.map byteLen).sum ≤ Size.max
  rebalance : ∀ policy fault, (rope.rebalance policy).outcome store = .error fault →
    fault = .capacityOverflow ∨ fault = .asciiLengths rope.byteLen rope.pairedCharLen

theorem fault_of_toSevenBit? {encoding : Encoding} {fault : Fault} (hlive : c.live rope)
    (hlabelled : ¬rope.Mislabelled)
    (h : (rope.toSevenBit? encoding).outcome c.store = .error fault) :
    fault = .cannotCarryAscii encoding := by
  obtain ⟨store, hrun⟩ := RopeM.outcome_eq_error_iff.mp h
  by_cases hc : rope.range = .asciiOnly → encoding.isAsciiCompatible = true
  · obtain ⟨answer, store', hok⟩ :=
      toSevenBit?_returns hlive fun hrange => ⟨hc hrange, hlabelled⟩
    rw [hok] at hrun
    cases hrun
  · obtain ⟨hrange, hnot⟩ := Classical.not_imp.mp hc
    rw [toSevenBit?_of_incompatible hrange (Bool.eq_false_iff.mpr hnot)] at hrun
    cases hrun
    rfl

theorem WF.sum_run_le (h : rope.WF) {run : List Rope} (hrun : run <:+: rope.parts) :
    (run.map byteLen).sum ≤ rope.byteLen := by
  rw [← h.sum_byteLen_parts]
  exact (hrun.sublist.map byteLen).sum_le_sum fun _ _ => Nat.zero_le _

theorem measures_of_live (hlive : c.live rope) (hmade : rope.Made Deed.Checked) :
    rope.Measures c.store := by
  have hwf := hmade.wf
  have hlabelled := hmade.checked.sound.not_mislabelled
  constructor
  case charLen_le => exact hmade.checked.charLen_le
  case byteLen_le => exact hwf.byteLen_le
  case scanner =>
    intro encoding octets scanner hpart hread
    have hlen := hpart.length_le
    rw [hwf.length_content] at hlen
    exact ⟨scanner.chars_le_finish, hread.finish_le, hlen.trans hwf.byteLen_le⟩
  case slice? => exact fun _ _ => (wf_slice? hlive).succeeds
  case slice =>
    intro offset len fault h
    obtain ⟨refusal, hfault, -⟩ := (wf_slice hlive).of_outcome h
    exact ⟨refusal, hfault⟩
  case resolve => exact (wf_resolve hlive).succeeds
  case toBinary? => exact (wf_toBinary? hlive).succeeds
  case toBinary =>
    intro fault h
    obtain ⟨refusal, hfault, -⟩ := (wf_toBinary hlive).of_outcome h
    exact ⟨refusal, hfault⟩
  case toSevenBit? => exact fun _ _ h => fault_of_toSevenBit? hlive hlabelled h
  case toSevenBit =>
    intro encoding fault h
    rcases RopeM.outcome_insist h with hcareful | hrefused
    · exact .inl (fault_of_toSevenBit? hlive hlabelled hcareful)
    · exact .inr hrefused
  case runs =>
    intro run hrun
    refine ⟨List.sum_le_sum fun piece hmem => ?_, (hwf.sum_run_le hrun).trans hwf.byteLen_le⟩
    have hn := (mem_parts (hrun.subset hmem)).1
    exact settledCharLen_le (hwf.of_within hn) (hmade.of_within hn).checked.charLen_le
  case rebalance =>
    intro policy fault h
    obtain ⟨store, hrun⟩ := RopeM.outcome_eq_error_iff.mp h
    exact hmade.fault_of_rebalance hlive nofun nofun hrun

end Rope

/-! ## Sessions -/

/-- In sessions where no caller says tags or numbers of characters, no node has more characters than
octets, and putting one rope after another is the only operation on ropes that can be in want of a
larger size. -/
theorem Session.Reachable.sums (h : session.Reachable Deed.Checked) :
    (∀ rope, session.Contains rope → rope.Measures session.store) ∧
      ∀ left right, session.Contains left → session.Contains right →
        left.AddsUp right session.store := by
  obtain ⟨c, hholds⟩ := h.holds
  have hnode {rope : Rope} (hrope : session.Contains rope) :
      c.live rope ∧ rope.Made Deed.Checked := by
    obtain ⟨hlive, hmade⟩ := hholds.of_contains hrope
    exact ⟨hlive, hmade.of_building trivial trivial⟩
  rw [hholds.store]
  constructor
  · intro rope hrope
    obtain ⟨hlive, hmade⟩ := hnode hrope
    exact Rope.measures_of_live hlive hmade
  · intro left right hleft hright
    obtain ⟨hl, hml⟩ := hnode hleft
    obtain ⟨hr, hmr⟩ := hnode hright
    exact Rope.addsUp_of_live hl hr hml.checked hmr.checked

/-- Sixty-three doublings and an octet more each time lead to the largest rope. One more octet is
too much, and so is the rope itself; everything else can be done with it. -/
theorem sums_largest :
    ∃ (session : Session) (rope octet : Rope), session.Reachable Deed.Checked ∧
      session.ropes.get? "r" = some rope ∧ session.ropes.get? "o" = some octet ∧
      rope.byteLen = Size.max ∧ rope.charLen = Size.max ∧ rope.Measures session.store ∧
      (octet.concat octet .standard).Succeeds session.store ∧
      (rope.concat octet .standard).outcome session.store = .error .sizeOverflow ∧
      (rope.concat rope .standard).outcome session.store = .error .sizeOverflow := by
  obtain ⟨session, rope, octet, h, hget, hlen, hchars, hget', hone, -⟩ :=
    Session.exists_reachable_pred_pow Deed.Checked trivial trivial 63 (by decide)
  have hmax : rope.byteLen = Size.max := hlen
  have hrope : session.Contains rope := ⟨rope, .named hget, .refl⟩
  have hoctet : session.Contains octet := ⟨octet, .named hget', .refl⟩
  obtain ⟨hmeasures, hadds⟩ := h.sums
  refine ⟨session, rope, octet, h, hget, hget', hmax, hchars.trans hmax, hmeasures rope hrope,
    ?_, ?_, ?_⟩
  · rw [(hadds octet octet hoctet hoctet).succeeds_iff, hone]
    decide
  · rw [(hadds rope octet hrope hoctet).overflows_iff, hmax, hone]
    decide
  · rw [(hadds rope rope hrope hrope).overflows_iff, hmax]
    decide

end ByteRope
