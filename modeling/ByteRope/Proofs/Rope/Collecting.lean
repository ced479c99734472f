import ByteRope.Proofs.Rope.Comparing
import ByteRope.RopeSet

/-!
# Collecting ropes

A set takes in a rope if no rope of the set has its key (`RopeSet.wf_insert`), so ropes that are put
into a set one after another leave the first of every key (`RopeSet.wf_foldlM_insert`).
-/

namespace ByteRope

variable {c : Census}

namespace Rope

/-- The ropes with this one at the end, unless one of them has its key. -/
def adjoin (ropes : List Rope) (rope : Rope) : List Rope :=
  if rope.key ∈ ropes.map key then ropes else ropes ++ [rope]

/-- The first rope of every key. -/
def distinct (ropes : List Rope) : List Rope := ropes.foldl adjoin []

variable {ropes : List Rope} {rope : Rope} {key : Encoding × List UInt8}

theorem mem_keys_adjoin :
    key ∈ (adjoin ropes rope).map Rope.key ↔ key ∈ ropes.map Rope.key ∨ key = rope.key := by
  unfold adjoin
  split
  next hmem =>
    refine ⟨.inl, ?_⟩
    rintro (hold | rfl)
    · exact hold
    · exact hmem
  next => rw [List.map_append, List.mem_append, List.map_singleton, List.mem_singleton]

theorem nodup_keys_adjoin (h : (ropes.map Rope.key).Nodup) :
    ((adjoin ropes rope).map Rope.key).Nodup := by
  unfold adjoin
  split
  next => exact h
  next hmem =>
    rw [List.map_append, List.map_singleton]
    have hone : [rope.key].Nodup := List.nodup_cons.mpr ⟨List.not_mem_nil, List.nodup_nil⟩
    refine List.nodup_append.mpr ⟨h, hone, fun key hold other hnew heq => hmem ?_⟩
    rw [← List.mem_singleton.mp hnew, ← heq]
    exact hold

theorem mem_of_mem_adjoin {other : Rope} (h : other ∈ adjoin ropes rope) :
    other ∈ ropes ∨ other = rope := by
  unfold adjoin at h
  split at h
  · exact .inl h
  · exact (List.mem_append.mp h).imp_right List.mem_singleton.mp

theorem mem_keys_foldl_adjoin {found : List Rope} :
    key ∈ (ropes.foldl adjoin found).map Rope.key ↔
      key ∈ found.map Rope.key ∨ key ∈ ropes.map Rope.key := by
  induction ropes generalizing found with
  | nil => simp
  | cons rope ropes ih =>
    rw [List.foldl_cons, ih, mem_keys_adjoin, List.map_cons, List.mem_cons, or_assoc]

theorem nodup_keys_foldl_adjoin {found : List Rope} (h : (found.map Rope.key).Nodup) :
    ((ropes.foldl adjoin found).map Rope.key).Nodup := by
  induction ropes generalizing found with
  | nil => exact h
  | cons rope ropes ih => exact ih (nodup_keys_adjoin h)

theorem mem_of_mem_foldl_adjoin {found : List Rope} {other : Rope}
    (h : other ∈ ropes.foldl adjoin found) : other ∈ found ∨ other ∈ ropes := by
  induction ropes generalizing found with
  | nil => exact .inl h
  | cons rope ropes ih =>
    rcases ih h with hfound | hrest
    · refine (mem_of_mem_adjoin hfound).imp_right ?_
      rintro rfl
      exact List.mem_cons_self ..
    · exact .inr (List.mem_cons_of_mem _ hrest)

theorem mem_of_mem_distinct {other : Rope} (h : other ∈ distinct ropes) : other ∈ ropes :=
  (mem_of_mem_foldl_adjoin h).resolve_left List.not_mem_nil

theorem nodup_keys_distinct (ropes : List Rope) : ((distinct ropes).map Rope.key).Nodup :=
  nodup_keys_foldl_adjoin List.nodup_nil

theorem mem_keys_distinct : key ∈ (distinct ropes).map Rope.key ↔ key ∈ ropes.map Rope.key :=
  mem_keys_foldl_adjoin.trans (or_iff_right List.not_mem_nil)

end Rope

namespace RopeSet

variable {ropes : RopeSet} {rope : Rope} {entry : RopeSet.Entry}

/-- The ropes of the set. -/
def members (ropes : RopeSet) : List Rope := ropes.entries.map Entry.rope

/-- The rope is in use, and the digest is that of its octets. -/
structure Entry.Sound (c : Census) (entry : Entry) : Prop where
  live : c.live entry.rope
  digest : entry.digest = c.store.digestOf entry.rope.encoding entry.rope.content.toArray

/-- All entries are sound. -/
def Sound (c : Census) (ropes : RopeSet) : Prop := ∀ entry ∈ ropes.entries, entry.Sound c

theorem Sound.mono {c' : Census} (h : ropes.Sound c) (hle : c ≤ c') : ropes.Sound c' :=
  fun entry hmem => ⟨hle.live (h entry hmem).live, hle.digestOf ▸ (h entry hmem).digest⟩

/-- Digests that differ are those of keys that differ, so the short cut over them changes
nothing. -/
theorem Entry.equal_eq (h : entry.Sound c) (hlive : c.live rope) {digest : UInt64}
    (hdigest : digest = c.store.digestOf rope.encoding rope.content.toArray) :
    entry.equal digest rope c.store = .ok (decide (entry.rope.key = rope.key)) c.store := by
  unfold Entry.equal
  split
  next => rw [Rope.equal_eq h.live hlive, decide_eq_decide.mpr Rope.key_eq_iff]
  next hdiffer =>
    have hne : entry.rope.key ≠ rope.key := by
      intro hkey
      obtain ⟨hencoding, hcontent⟩ := Rope.key_eq_iff.mp hkey
      exact hdiffer (by rw [h.digest, hdigest, hencoding, hcontent])
    rw [decide_eq_false hne]
    rfl

theorem any_entries (ropes : RopeSet) (rope : Rope) :
    (ropes.entries.any fun entry => decide (entry.rope.key = rope.key)) =
      decide (rope.key ∈ ropes.members.map Rope.key) := by
  rw [members, List.map_map, Bool.eq_iff_iff, List.any_eq_true, decide_eq_true_iff, List.mem_map]
  simp only [decide_eq_true_iff, Function.comp_apply]

theorem wf_insert (h : ropes.Sound c) (hlive : c.live rope) :
    RopeM.WF c (ropes.insert rope)
      (fun ropes' c' => ropes'.Sound c' ∧ ropes'.members = Rope.adjoin ropes.members rope ∧
        rope.byteLen ≤ Size.maxBuffer)
      (RopeM.Overlong rope.byteLen) := by
  refine (Rope.wf_digest hlive).bind fun digest c' hle hresult => ?_
  obtain ⟨hdigest, hmax⟩ := hresult
  rw [← hle.digestOf] at hdigest
  have hsound := h.mono hle
  refine RopeM.WF.reads (RopeM.run_anyM fun entry hmem =>
    Entry.equal_eq (hsound entry hmem) (hle.live hlive) hdigest) ?_
  rw [any_entries]
  split
  next hmem => exact RopeM.WF.pure ⟨hsound, (if_pos (of_decide_eq_true hmem)).symm, hmax⟩
  next hmem =>
    refine RopeM.WF.pure ⟨fun entry hentry => ?_, ?_, hmax⟩
    · rcases List.mem_append.mp hentry with hold | hnew
      · exact hsound entry hold
      · cases List.mem_singleton.mp hnew
        exact ⟨hle.live hlive, hdigest⟩
    · rw [members, List.map_append, Rope.adjoin, if_neg (hmem ∘ decide_eq_true)]
      rfl

/-- The fault of a buffer for a rope that is too long for one. -/
def Overfull (added : List Rope) (fault : Fault) : Prop :=
  fault = .capacityOverflow ∧ ∃ rope ∈ added, Size.maxBuffer < rope.byteLen

theorem wf_foldlM_insert {added : List Rope} (h : ropes.Sound c)
    (hlive : ∀ rope ∈ added, c.live rope) :
    RopeM.WF c (added.foldlM insert ropes)
      (fun ropes' _ => ropes'.members = added.foldl Rope.adjoin ropes.members ∧
        ∀ rope ∈ added, rope.byteLen ≤ Size.maxBuffer)
      (Overfull added) := by
  induction added generalizing c ropes with
  | nil => exact RopeM.WF.pure ⟨rfl, nofun⟩
  | cons rope added ih =>
    rw [List.foldlM_cons]
    refine ((wf_insert h (hlive rope (List.mem_cons_self ..))).faults fun _ hlong => ?_).bind ?_
    · exact ⟨hlong.1, rope, List.mem_cons_self .., hlong.2⟩
    · intro ropes' c' hle hresult
      obtain ⟨hsound, hropes, hmax⟩ := hresult
      refine (ih hsound fun other hmem => hle.live (hlive other (List.mem_cons_of_mem _ hmem))).mono
        (fun ropes'' c'' _ hresult => ?_) fun fault hfault => ?_
      · obtain ⟨hropes', hmax'⟩ := hresult
        refine ⟨by rw [hropes', hropes, List.foldl_cons], fun other hmem => ?_⟩
        rcases List.mem_cons.mp hmem with rfl | hrest
        · exact hmax
        · exact hmax' other hrest
      · obtain ⟨hfault, other, hmem, hlong⟩ := hfault
        exact ⟨hfault, other, List.mem_cons_of_mem _ hmem, hlong⟩

end RopeSet

end ByteRope
