import ByteRope.Proofs.Builder.Steps

/-!
# Running builders

What a builder does, and when it faults. Under two assumptions, that no rope has more characters
than octets and that the octets of all pieces together are a size, the sums are never in the way.
What can be is said of the pieces and trees before the step (`Builder.Pushable`,
`Builder.Buildable`).
-/

namespace ByteRope.Builder

open RopeM
open Rope (Concatenated Leafed Rebalanced Rebuildable Scanned Family)

variable {P : Rope → Prop} {c c' : Census} {config : Config} {builder : Builder}
  {piece rope left right : Rope} {forest : List Tree} {count : Nat}

/-- No rope of the family has more characters than octets. -/
def Sparing (P : Rope → Prop) : Prop := ∀ rope, P rope → rope.charLen ≤ rope.byteLen

/-! ## Pieces -/

/-- Rebalancing makes the piece a balanced join. -/
def Improves (config : Config) (piece : Rope) : Prop :=
  piece.isJoin = true ∧ piece.pairedDepth < piece.depth ∧
    config.policy.isBalanced piece.pairedDepth piece.byteLen = true

/-- The piece is balanced or is to be left as it is, or else it can be rebalanced if that is the
strategy, and copied into a leaf if rebalancing is not the strategy or does not help. -/
structure Preparable (config : Config) (piece : Rope) : Prop where
  rebuildable : piece.isBalanced = false → config.rebalance = .rebalance → piece.isJoin = true →
    piece.Rebuildable
  short : piece.isBalanced = false → config.rebalance ≠ .never →
    (config.rebalance = .rebalance → ¬Improves config piece) → piece.byteLen ≤ Size.maxBuffer

theorem wf_flattened (h : c.live piece) :
    RopeM.WF c (flattened piece) (fun leaf c' => c'.live leaf ∧ Leafed piece leaf)
      (Overlong piece.byteLen) := by
  refine (Rope.wf_toLeaf h).bind fun leaf c' _ hleaf => WF.emit fun c'' hle => ?_
  exact WF.pure ⟨hle.live hleaf.1, hleaf.2⟩

theorem isBalanced_iff_improves {rebuilt : Rope} (hpiece : piece.isBalanced = false)
    (h : Rebalanced P config.policy piece rebuilt) :
    rebuilt.isBalanced = true ↔ Improves config piece := by
  cases h with
  | same hkept =>
    rw [hpiece]
    refine ⟨nofun, fun hi => absurd hi.2.1 (Nat.not_lt_of_le (hkept hi.1))⟩
  | rebuilt hjoin _ _ _ hgain hrebuilt =>
    cases hrebuilt
    exact ⟨fun hbalanced => ⟨hjoin, hgain, hbalanced⟩, fun hi => hi.2.2⟩

theorem Prepared.content_eq {prepared : Rope} (h : Prepared P config piece prepared) :
    prepared.content = piece.content := by
  cases h with
  | kept => rfl
  | rebuilt _ _ hrebalanced => exact hrebalanced.content_eq
  | unbalanced _ _ _ _ _ hleafed => exact hleafed.content_eq
  | flattened _ _ hleafed => exact hleafed.content_eq

theorem Prepared.byteLen_eq {prepared : Rope} (h : Prepared P config piece prepared)
    (hpiece : piece.WF) (hprepared : prepared.WF) : prepared.byteLen = piece.byteLen :=
  hpiece.byteLen_eq hprepared h.content_eq

theorem Prepared.preparable {prepared : Rope} (h : Prepared P config piece prepared)
    (hpiece : piece.WF) : Preparable config piece := by
  cases h with
  | kept hkept =>
    refine ⟨fun hu hr => ?_, fun hu hne => ?_⟩ <;> rw [hu] at hkept <;>
      rcases hkept with hbalanced | hnever
    · cases hbalanced
    · rw [hnever] at hr
      cases hr
    · cases hbalanced
    · exact absurd hnever hne
  | rebuilt hu hrebalance hrebalanced hrebuildable hbalanced =>
    refine ⟨fun _ _ => hrebuildable, fun _ _ hworse => ?_⟩
    exact absurd ((isBalanced_iff_improves hu hrebalanced).mp hbalanced) (hworse hrebalance)
  | unbalanced _ _ _ hrebuildable _ hleafed =>
    exact ⟨fun _ _ => hrebuildable, fun _ _ _ => hleafed.byteLen_le hpiece⟩
  | flattened _ hflatten hleafed =>
    refine ⟨fun _ hr => ?_, fun _ _ _ => hleafed.byteLen_le hpiece⟩
    rw [hflatten] at hr
    cases hr

theorem wf_prepare (hP : Family P) (h : piece.Ready P c) :
    RopeM.WF c (prepare config piece)
      (fun prepared c' => prepared.Ready P c' ∧ Prepared P config piece prepared)
      (fun _ => Sparing P → ¬Preparable config piece) := by
  unfold prepare
  split
  next hbalanced => exact WF.pure ⟨h, .kept (.inl hbalanced)⟩
  next hunbalanced =>
    have hpiece : piece.isBalanced = false := Bool.eq_false_iff.mpr hunbalanced
    split
    next hnever => exact WF.pure ⟨h, .kept (.inr hnever)⟩
    next hflatten =>
      refine (wf_flattened h.live).mono ?_ fun fault hlong _ hprep => ?_
      · intro leaf c' hle hresult
        obtain ⟨hlive, hleafed⟩ := hresult
        exact ⟨h.leaf hP hlive hleafed, .flattened hpiece hflatten hleafed⟩
      · have hne : config.rebalance ≠ .never := by rw [hflatten]; nofun
        have hshort := hprep.short hpiece hne fun hr => by rw [hflatten] at hr; cases hr
        exact absurd hshort (Nat.not_le_of_lt hlong.2)
    next hrebalance =>
      refine ((Rope.wf_rebalance (hP.concat _) h.live (hP.settle h.holds)).faults ?_).bind ?_
      · rintro fault ⟨hjoin, hun⟩ hs hprep
        refine hun.not_rebuildable ?_ (hprep.rebuildable hpiece hrebalance hjoin)
        refine Nat.le_trans (Rope.pairedCharLen_le (c.wf h.live) fun part hmem => ?_)
          (c.wf h.live).byteLen_le
        exact hs _ (hP.within h.holds (Rope.mem_parts hmem).1)
      · intro rebuilt c' hle hresult
        obtain ⟨hlive, hrebalanced, hrebuildable⟩ := hresult
        split
        next hbalanced =>
          refine WF.emit fun c'' hle' => WF.pure ⟨⟨hle'.live hlive, ?_, ?_⟩, ?_⟩
          · exact hrebalanced.holds hP h.holds
          · rw [← (c'.wf hlive).length_content, hrebalanced.content_eq,
              (c.wf h.live).length_content]
            exact h.byteLen_ne
          · exact .rebuilt hpiece hrebalance hrebalanced hrebuildable hbalanced
        next hbalanced =>
          have h' := h.mono hle
          refine (wf_flattened h'.live).mono ?_ fun fault hlong _ hprep => ?_
          · intro leaf c'' hle' hresult
            obtain ⟨hlive', hleafed⟩ := hresult
            exact ⟨h'.leaf hP hlive' hleafed, .unbalanced hpiece hrebalance hrebalanced
              hrebuildable (Bool.eq_false_iff.mpr hbalanced) hleafed⟩
          · have hne : config.rebalance ≠ .never := by rw [hrebalance]; nofun
            have hworse : ¬Improves config piece :=
              fun hi => hbalanced ((isBalanced_iff_improves hpiece hrebalanced).mpr hi)
            exact absurd (hprep.short hpiece hne fun _ => hworse) (Nat.not_le_of_lt hlong.2)

/-! ## Trees -/

theorem not_tooLarge (hs : Sparing P) (hl : left.Ready P c) (hr : right.Ready P c)
    (hmax : left.byteLen + right.byteLen ≤ Size.max) (fault : Fault) :
    ¬Rope.TooLarge left right fault := by
  have hlc := hs left hl.holds
  have hrc := hs right hr.holds
  rintro (⟨-, hbytes⟩ | ⟨-, hchars⟩) <;> omega

/-- Joining two trees that are not empty. -/
theorem wf_join (hP : Family P) {policy : BalancePolicy} (hl : left.Ready P c)
    (hr : right.Ready P c) :
    RopeM.WF c (left.concat right policy)
      (fun joined c' => joined.Ready P c' ∧ Concatenated left right policy joined ∧
        joined.byteLen = left.byteLen + right.byteLen)
      (fun _ => Sparing P → ¬left.byteLen + right.byteLen ≤ Size.max) := by
  refine (Rope.wf_concat_of_ready (hP.concat _) hl hr).mono ?_ ?_
  · exact fun joined c' _ h => ⟨h.1, .join hl.byteLen_ne hr.byteLen_ne h.2,
      Rope.adds_byteLen _ _ _ _ _ _ h.2⟩
  · exact fun fault hlarge hs hmax => not_tooLarge hs hl hr hmax fault hlarge

theorem wf_merge (hP : Family P) (hl : left.Ready P c) (hr : right.Ready P c) :
    RopeM.WF c (merge config left right)
      (fun merged c' => merged.Ready P c' ∧ Merged config left right merged ∧
        merged.byteLen = left.byteLen + right.byteLen ∧
        (config.rebalance = .flatten → left.byteLen + right.byteLen ≤ Size.maxBuffer))
      (fun _ => Sparing P → left.byteLen + right.byteLen ≤ Size.max →
        config.rebalance = .flatten ∧ Size.maxBuffer < left.byteLen + right.byteLen) := by
  refine ((wf_join hP hl hr).faults fun _ hno hs hmax => absurd hmax (hno hs)).bind ?_
  intro joined c' hle hresult
  obtain ⟨hjoined, hconcat, hlen⟩ := hresult
  split
  next hflatten =>
    refine (wf_flattened hjoined.live).mono ?_ fun fault hlong _ _ => ⟨hflatten, hlen ▸ hlong.2⟩
    intro leaf c'' hle' hresult
    obtain ⟨hlive, hleafed⟩ := hresult
    have hwf := c'.wf hjoined.live
    refine ⟨hjoined.leaf hP hlive hleafed, .flattened hflatten hconcat hleafed,
      (hleafed.byteLen_eq hwf).trans hlen, fun _ => ?_⟩
    exact hlen ▸ hleafed.byteLen_le hwf
  all_goals
    next hother =>
      have hne : config.rebalance ≠ .flatten := by rw [hother]; nofun
      exact WF.emit fun c'' hle' => WF.pure
        ⟨hjoined.mono hle', .joined hne hconcat, hlen, fun heq => absurd heq hne⟩

/-! ## Forests -/

/-- The numbers of pieces and of octets of the trees of a forest. -/
def profile (forest : List Tree) : List (Nat × Nat) :=
  forest.map fun tree => (tree.count, tree.rope.byteLen)

/-- The profile of a forest with one tree more. -/
def carryProfile (count len : Nat) : List (Nat × Nat) → List (Nat × Nat)
  | [] => [(count, len)]
  | last :: earlier =>
    if last.1 = count then carryProfile (count + last.1) (last.2 + len) earlier
    else (count, len) :: last :: earlier

/-- The trees that are merged on the way are no longer than a buffer. -/
def CarryFits (count len : Nat) : List (Nat × Nat) → Prop
  | [] => True
  | last :: earlier => last.1 = count →
    last.2 + len ≤ Size.maxBuffer ∧ CarryFits (count + last.1) (last.2 + len) earlier

/-- The number of octets in a forest. -/
def forestLen (forest : List Tree) : Nat := (forest.map fun tree => tree.rope.byteLen).sum

/-- The trees are in use and not empty, and `P` holds of them. -/
def ForestReady (P : Rope → Prop) (c : Census) (forest : List Tree) : Prop :=
  ∀ tree ∈ forest, tree.rope.Ready P c

theorem ForestReady.mono (h : ForestReady P c forest) (hle : c ≤ c') : ForestReady P c' forest :=
  fun tree hmem => (h tree hmem).mono hle

theorem ForestReady.cons {tree : Tree} (ht : tree.rope.Ready P c) (h : ForestReady P c forest) :
    ForestReady P c (tree :: forest) := by
  rintro other (_ | ⟨_, hmem⟩)
  · exact ht
  · exact h other hmem

theorem wf_carry (hP : Family P) (hrope : rope.Ready P c) (hforest : ForestReady P c forest) :
    RopeM.WF c (carry config rope count forest)
      (fun forest' c' => ForestReady P c' forest' ∧ Carried config rope count forest forest' ∧
        profile forest' = carryProfile count rope.byteLen (profile forest) ∧
        forestLen forest' = forestLen forest + rope.byteLen ∧
        (config.rebalance = .flatten → CarryFits count rope.byteLen (profile forest)))
      (fun _ => Sparing P → forestLen forest + rope.byteLen ≤ Size.max →
        config.rebalance = .flatten ∧ ¬CarryFits count rope.byteLen (profile forest)) := by
  induction forest generalizing c rope count with
  | nil =>
    refine WF.pure ⟨?_, .alone, rfl, ?_, fun _ => trivial⟩
    · exact ForestReady.cons hrope hforest
    · simp [forestLen]
  | cons last earlier ih =>
    have hlast := hforest last (List.mem_cons_self ..)
    have hearlier : ForestReady P c earlier :=
      fun tree hmem => hforest tree (List.mem_cons_of_mem _ hmem)
    unfold carry
    split
    next heq =>
      have hsum : forestLen (last :: earlier) = last.rope.byteLen + forestLen earlier :=
        List.sum_cons
      refine ((wf_merge hP hlast hrope).faults ?_).bind ?_
      · intro fault hno hs hmax
        obtain ⟨hflatten, hlt⟩ := hno hs (by omega)
        exact ⟨hflatten, fun hfits => absurd (hfits heq).1 (Nat.not_le_of_lt hlt)⟩
      · intro merged c' hle hresult
        obtain ⟨hmerged, hrel, hlen, hfits⟩ := hresult
        refine (ih hmerged (hearlier.mono hle)).mono ?_ ?_
        · intro forest' c'' _ hresult
          obtain ⟨hready, hcarried, hprofile, hlen', hfits'⟩ := hresult
          refine ⟨hready, .merge heq hrel hcarried, ?_, by omega, fun hflatten _ => ?_⟩
          · rw [hprofile, hlen]
            exact (if_pos heq).symm
          · exact ⟨hfits hflatten, hlen ▸ hfits' hflatten⟩
        · intro fault hno hs hmax
          obtain ⟨hflatten, hnot⟩ := hno hs (by omega)
          exact ⟨hflatten, fun hfits => hnot (hlen ▸ (hfits heq).2)⟩
    next hne =>
      refine WF.pure ⟨?_, .stop hne, ?_, ?_, ?_⟩
      · exact ForestReady.cons hrope hforest
      · simp [profile, carryProfile, hne]
      · simp [forestLen, Nat.add_comm]
      · exact fun _ heq => absurd heq hne

/-- The trees and the piece held back are in use and not empty, and `P` holds of them. -/
structure Ready (P : Rope → Prop) (c : Census) (builder : Builder) : Prop where
  forest : ForestReady P c builder.forest
  tail : ∀ tail, builder.tail? = some tail → tail.Ready P c

/-- The number of octets pushed. -/
def len (builder : Builder) : Nat :=
  forestLen builder.forest + (builder.tail?.map Rope.byteLen).getD 0

/-- The piece can be added to a forest of this profile. -/
structure Appendable (config : Config) (profile : List (Nat × Nat)) (piece : Rope) : Prop where
  prepares : Preparable config piece
  fits : config.rebalance = .flatten → CarryFits 1 piece.byteLen profile

theorem wf_extend (hP : Family P) (hpiece : piece.Ready P c) (hforest : ForestReady P c forest) :
    RopeM.WF c (extend config piece forest)
      (fun forest' c' => ForestReady P c' forest' ∧ Extended config piece forest forest' ∧
        forestLen forest' = forestLen forest + piece.byteLen)
      (fun _ => Sparing P → ¬forestLen forest + piece.byteLen ≤ Size.max) := by
  cases forest with
  | nil =>
    refine WF.pure ⟨ForestReady.cons hpiece hforest, .alone, ?_⟩
    simp [forestLen]
  | cons last earlier =>
    have hlast := hforest last (List.mem_cons_self ..)
    have hsum : forestLen (last :: earlier) = last.rope.byteLen + forestLen earlier := List.sum_cons
    refine ((wf_join hP hlast hpiece).faults ?_).bind ?_
    · exact fun _ hno hs hmax => hno hs (by omega)
    · intro joined c' hle hresult
      obtain ⟨hjoined, hconcat, hlen⟩ := hresult
      refine WF.pure ⟨?_, .more hconcat, ?_⟩
      · exact ForestReady.cons hjoined fun tree hmem =>
          (hforest tree (List.mem_cons_of_mem _ hmem)).mono hle
      · have hsum' : forestLen (⟨joined, last.count + 1⟩ :: earlier) =
            joined.byteLen + forestLen earlier := List.sum_cons
        omega

theorem wf_append (hP : Family P) (hready : builder.Ready P c) (hpiece : piece.Ready P c) :
    RopeM.WF c (append builder piece)
      (fun builder' c' => builder'.Ready P c' ∧ Appended P builder piece builder' ∧
        forestLen builder'.forest = forestLen builder.forest + piece.byteLen ∧
        (builder.config.rebalance ≠ .never →
          profile builder'.forest = carryProfile 1 piece.byteLen (profile builder.forest)) ∧
        Appendable builder.config (profile builder.forest) piece)
      (fun _ => Sparing P → forestLen builder.forest + piece.byteLen ≤ Size.max →
        ¬Appendable builder.config (profile builder.forest) piece) := by
  refine ((wf_prepare hP hpiece).faults ?_).bind ?_
  · exact fun _ hno hs _ happ => hno hs happ.prepares
  · intro prepared c₁ hle₁ hresult
    obtain ⟨hprepared, hrel⟩ := hresult
    have hlen := hrel.byteLen_eq (c.wf hpiece.live) (c₁.wf hprepared.live)
    have hprep := hrel.preparable (c.wf hpiece.live)
    have hforest := hready.forest.mono hle₁
    split
    next hnever =>
      refine ((wf_extend hP hprepared hforest).faults ?_).bind ?_
      · exact fun _ hno hs hmax => absurd (hlen ▸ hmax) (hno hs)
      · intro forest c₂ hle₂ hresult
        obtain ⟨hforest', hextended, hsum⟩ := hresult
        refine WF.pure ⟨⟨hforest', fun tail htail => ?_⟩, .extend hnever hrel hextended,
          hlen ▸ hsum, fun hne => absurd hnever hne, hprep, fun hflatten => ?_⟩
        · exact (hready.tail tail htail).mono (Census.le_trans hle₁ hle₂)
        · rw [hnever] at hflatten
          cases hflatten
    all_goals
      next hother =>
        have hne : builder.config.rebalance ≠ .never := by rw [hother]; nofun
        refine ((wf_carry hP hprepared hforest).faults ?_).bind ?_
        · intro _ hno hs hmax happ
          obtain ⟨hflatten, hnot⟩ := hno hs (hlen ▸ hmax)
          exact hnot (hlen ▸ happ.fits hflatten)
        · intro forest c₂ hle₂ hresult
          obtain ⟨hforest', hcarried, hprofile, hsum, hfits⟩ := hresult
          refine WF.pure ⟨⟨hforest', fun tail htail => ?_⟩, .carry hne hrel hcarried,
            hlen ▸ hsum, fun _ => hlen ▸ hprofile, hprep, hlen ▸ hfits⟩
          exact (hready.tail tail htail).mono (Census.le_trans hle₁ hle₂)

/-- The piece held back can be added to the forest. -/
def Flushable (builder : Builder) : Prop :=
  ∀ tail, builder.tail? = some tail → Appendable builder.config (profile builder.forest) tail

/-- The profile of the forest once nothing is held back. -/
def flushedProfile (builder : Builder) : List (Nat × Nat) :=
  match builder.tail? with
  | none => profile builder.forest
  | some tail => carryProfile 1 tail.byteLen (profile builder.forest)

theorem wf_flushTail (hP : Family P) (hready : builder.Ready P c) :
    RopeM.WF c builder.flushTail
      (fun builder' c' => builder'.Ready P c' ∧ Flushed P builder builder' ∧
        forestLen builder'.forest = builder.len ∧
        (builder.config.rebalance ≠ .never → profile builder'.forest = builder.flushedProfile) ∧
        builder.Flushable)
      (fun _ => Sparing P → builder.len ≤ Size.max → ¬builder.Flushable) := by
  unfold flushTail
  split
  next hnone =>
    refine WF.pure ⟨hready, .none hnone, ?_, ?_, ?_⟩
    · rw [len, hnone]
      rfl
    · rw [flushedProfile, hnone]
      exact fun _ => rfl
    · rw [Flushable, hnone]
      nofun
  next tail htail =>
    have hlen : builder.len = forestLen builder.forest + tail.byteLen := by
      rw [len, htail]
      rfl
    have hready' : Ready P c { builder with tail? := none } := ⟨hready.forest, nofun⟩
    refine (wf_append hP hready' (hready.tail tail htail)).mono ?_ ?_
    · intro builder' c' _ hresult
      obtain ⟨hbuilder, happended, hsum, hprofile, happ⟩ := hresult
      refine ⟨hbuilder, .tail htail happended, hlen ▸ hsum, ?_, ?_⟩
      · rw [flushedProfile, htail]
        exact hprofile
      · rw [Flushable, htail]
        intro _ heq
        cases heq
        exact happ
    · intro _ hno hs hmax hflushable
      exact hno hs (hlen ▸ hmax) (hflushable tail htail)

/-! ## Pushing -/

/-- The piece is not to be merged into a piece held back. -/
def Apart (builder : Builder) (piece : Rope) : Prop :=
  ∀ tail, builder.tail? = some tail → ¬FitsTail builder.config tail piece

/-- The leaf that the piece is merged into is no longer than a buffer, or the piece held back can be
added to the forest, and the piece after it if it is not small. -/
structure Pushable (builder : Builder) (piece : Rope) : Prop where
  merges : ∀ tail, builder.tail? = some tail → FitsTail builder.config tail piece →
    tail.byteLen + piece.byteLen ≤ Size.maxBuffer
  flushes : builder.Apart piece → builder.Flushable
  appends : builder.Apart piece → builder.config.smallConcatBytes < piece.byteLen →
    Appendable builder.config builder.flushedProfile piece

theorem Appendable.congr {profile profile' : List (Nat × Nat)}
    (hprofile : config.rebalance ≠ .never → profile' = profile)
    (h : Appendable config profile piece) : Appendable config profile' piece := by
  refine ⟨h.prepares, fun hflatten => ?_⟩
  rw [hprofile (by rw [hflatten]; nofun)]
  exact h.fits hflatten

theorem wf_accept (hP : Family P) (hready : builder.Ready P c) (hpiece : piece.Ready P c) :
    RopeM.WF c (builder.accept piece)
      (fun builder' c' => builder'.Ready P c' ∧ Accepted P builder piece builder' ∧
        builder'.len = builder.len + piece.byteLen ∧ builder.Flushable ∧
        (builder.config.smallConcatBytes < piece.byteLen →
          Appendable builder.config builder.flushedProfile piece))
      (fun _ => Sparing P → builder.len + piece.byteLen ≤ Size.max → builder.Flushable →
        builder.config.smallConcatBytes < piece.byteLen ∧
          ¬Appendable builder.config builder.flushedProfile piece) := by
  refine ((wf_flushTail hP hready).faults ?_).bind ?_
  · exact fun _ hno hs hmax hflushable =>
      absurd hflushable (hno hs (Nat.le_trans (Nat.le_add_right ..) hmax))
  · intro builder' c' hle hresult
    obtain ⟨hbuilder, hflushed, hsum, hprofile, hflushable⟩ := hresult
    have hpiece' := hpiece.mono hle
    have hconfig := hflushed.config_eq
    split
    next hsmall =>
      rw [hconfig] at hsmall
      refine WF.pure ⟨⟨hbuilder.forest, ?_⟩, .held hflushed hsmall, ?_, hflushable, ?_⟩
      · intro _ heq
        cases heq
        exact hpiece'
      · rw [← hsum]
        rfl
      · exact fun hlarge => absurd hlarge (Nat.not_lt_of_le hsmall)
    next hlarge =>
      rw [hconfig] at hlarge
      have hlt := Nat.lt_of_not_le hlarge
      refine (wf_append hP hbuilder hpiece').mono ?_ ?_
      · intro builder'' c'' _ hresult
        obtain ⟨hbuilder', happended, hsum', -, happ⟩ := hresult
        refine ⟨hbuilder', .large hflushed hlt happended, ?_, hflushable, fun _ => ?_⟩
        · rw [len, happended.tail_eq, hflushed.tail_eq, hsum', hsum]
          rfl
        · rw [hconfig] at happ
          exact happ.congr fun hne => (hprofile hne).symm
      · intro _ hno hs hmax _
        refine ⟨hlt, fun happ => hno hs (hsum ▸ hmax) ?_⟩
        rw [hconfig]
        exact happ.congr hprofile

theorem fitsTail_eq_ok {tail : Rope} {fits : Bool} (h : fitsTail config tail piece = .ok fits) :
    fits = true ↔ FitsTail config tail piece := by
  unfold fitsTail at h
  split at h
  next hencoding =>
    unfold Size.add at h
    split at h
    · cases h
      exact decide_eq_true_iff.trans ⟨fun hle => ⟨hencoding, hle⟩, And.right⟩
    · cases h
  next hencoding =>
    cases h
    exact ⟨nofun, fun hfits => absurd hfits.1 hencoding⟩

theorem fitsTail_eq_error {tail : Rope} {fault : Fault}
    (h : fitsTail config tail piece = .error fault) :
    Size.max < tail.byteLen + piece.byteLen := by
  unfold fitsTail at h
  split at h
  next =>
    unfold Size.add at h
    split at h
    next => cases h
    next hlarge => exact Nat.lt_of_not_le hlarge
  next => cases h

/-- A piece that is not merged. -/
theorem wf_accept_of_apart (hP : Family P) (hready : builder.Ready P c) (hpiece : piece.Ready P c)
    (hapart : builder.Apart piece) :
    RopeM.WF c (builder.accept piece)
      (fun builder' c' => builder'.Ready P c' ∧ Pushed P builder piece builder' ∧
        builder'.len = builder.len + piece.byteLen ∧ builder.Pushable piece)
      (fun _ => Sparing P → builder.len + piece.byteLen ≤ Size.max →
        ¬builder.Pushable piece) := by
  refine (wf_accept hP hready hpiece).mono ?_ ?_
  · intro builder' c' _ hresult
    obtain ⟨hbuilder, haccepted, hlen, hflushable, happ⟩ := hresult
    refine ⟨hbuilder, .accepted hpiece.byteLen_ne hapart haccepted, hlen, ?_, ?_, ?_⟩
    · exact fun tail htail hfits => absurd hfits (hapart tail htail)
    · exact fun _ => hflushable
    · exact fun _ => happ
  · intro _ hno hs hmax hpushable
    obtain ⟨hlt, hnot⟩ := hno hs hmax (hpushable.flushes hapart)
    exact hnot (hpushable.appends hapart hlt)

/-- A piece that is merged into the one held back. -/
theorem wf_mergeTail (hP : Family P) (hready : builder.Ready P c) (hpiece : piece.Ready P c)
    {tail : Rope} (htail : builder.tail? = some tail) (hfits : FitsTail builder.config tail piece) :
    RopeM.WF c
      (do
        let merged ← (← tail.concat piece builder.config.policy).toLeaf
        RopeM.emit (.smallMerged merged.byteLen builder.config.smallConcatBytes)
        return { builder with tail? := some merged })
      (fun builder' c' => builder'.Ready P c' ∧ Pushed P builder piece builder' ∧
        builder'.len = builder.len + piece.byteLen ∧ builder.Pushable piece)
      (fun _ => Sparing P → builder.len + piece.byteLen ≤ Size.max →
        ¬builder.Pushable piece) := by
  have htail' := hready.tail tail htail
  have hlen : builder.len = forestLen builder.forest + tail.byteLen := by
    rw [len, htail]
    rfl
  have hnot : ¬builder.Apart piece := fun hapart => hapart tail htail hfits
  refine ((wf_join hP htail' hpiece).faults ?_).bind ?_
  · exact fun _ hno hs hmax => absurd (by omega) (hno hs)
  · intro joined c' hle hresult
    obtain ⟨hjoined, hconcat, hsum⟩ := hresult
    refine ((Rope.wf_toLeaf hjoined.live).faults ?_).bind ?_
    · intro _ hlong _ _ hpushable
      exact absurd (hpushable.merges tail htail hfits) (Nat.not_le_of_lt (hsum ▸ hlong.2))
    · intro leaf c'' hle' hresult
      obtain ⟨hlive', hleafed⟩ := hresult
      have hleaf := hjoined.leaf hP hlive' hleafed
      have hlen' := (hleafed.byteLen_eq (c'.wf hjoined.live)).trans hsum
      refine WF.emit fun c₃ hle₃ => WF.pure
        ⟨⟨?_, ?_⟩, .merged hpiece.byteLen_ne htail hfits hconcat hleafed, ?_, ?_, ?_, ?_⟩
      · exact hready.forest.mono (Census.le_trans hle (Census.le_trans hle' hle₃))
      · intro _ heq
        cases heq
        exact hleaf.mono hle₃
      · rw [hlen, Nat.add_assoc, ← hlen']
        rfl
      · intro other hother _
        cases htail.symm.trans hother
        exact hsum ▸ hleafed.byteLen_le (c'.wf hjoined.live)
      · exact fun hapart => absurd hapart hnot
      · exact fun hapart => absurd hapart hnot

theorem wf_push (hP : Family P) (hready : builder.Ready P c) (hlive : c.live piece)
    (hpiece : P piece) :
    RopeM.WF c (builder.push piece)
      (fun builder' c' => builder'.Ready P c' ∧ Pushed P builder piece builder' ∧
        builder'.len = builder.len + piece.byteLen ∧
        (piece.byteLen = 0 ∨ builder.Pushable piece))
      (fun _ => Sparing P → builder.len + piece.byteLen ≤ Size.max →
        piece.byteLen ≠ 0 ∧ ¬builder.Pushable piece) := by
  unfold push
  split
  next hempty =>
    have hzero := Rope.isEmpty_iff.mp hempty
    exact WF.pure ⟨hready, .empty hzero, by rw [hzero]; rfl, .inl hzero⟩
  next hempty =>
    have hne : piece.byteLen ≠ 0 := fun hzero => hempty (Rope.isEmpty_iff.mpr hzero)
    have hpiece : piece.Ready P c := ⟨hlive, hpiece, hne⟩
    refine WF.mono (Q := fun builder' c' => builder'.Ready P c' ∧ Pushed P builder piece builder' ∧
        builder'.len = builder.len + piece.byteLen ∧ builder.Pushable piece)
      (E := fun _ => Sparing P → builder.len + piece.byteLen ≤ Size.max → ¬builder.Pushable piece)
      ?_ (fun _ _ _ h => ⟨h.1, h.2.1, h.2.2.1, .inr h.2.2.2⟩) fun _ h hs hmax => ⟨hne, h hs hmax⟩
    split
    next hnone => exact wf_accept_of_apart hP hready hpiece (by rw [Apart, hnone]; nofun)
    next tail htail =>
      have hlen : builder.len = forestLen builder.forest + tail.byteLen := by
        rw [len, htail]
        rfl
      refine WF.lift (fun fits hok => ?_) fun _ herror _ hmax => ?_
      · have hfits := fitsTail_eq_ok hok
        split
        next h => exact wf_mergeTail hP hready hpiece htail (hfits.mp h)
        next h =>
          refine wf_accept_of_apart hP hready hpiece fun other hother hother' => h ?_
          cases htail.symm.trans hother
          exact hfits.mpr hother'
      · have hlarge := fitsTail_eq_error herror
        omega

/-! ## Building -/

theorem wf_joinTrees (hP : Family P) {policy : BalancePolicy} (hrope : rope.Ready P c)
    (hforest : ForestReady P c forest) :
    RopeM.WF c (joinTrees policy rope forest)
      (fun result c' => result.Ready P c' ∧ Assembled policy rope forest result)
      (fun _ => Sparing P → ¬rope.byteLen + forestLen forest ≤ Size.max) := by
  induction forest generalizing c rope with
  | nil => exact WF.pure ⟨hrope, .nil⟩
  | cons tree earlier ih =>
    have hsum : forestLen (tree :: earlier) = tree.rope.byteLen + forestLen earlier := List.sum_cons
    refine ((wf_join hP (hforest tree (List.mem_cons_self ..)) hrope).faults ?_).bind ?_
    · exact fun _ hno hs hmax => hno hs (by omega)
    · intro joined c' hle hresult
      obtain ⟨hjoined, hconcat, hlen⟩ := hresult
      refine (ih hjoined fun other hmem => ?_).mono ?_ ?_
      · exact (hforest other (List.mem_cons_of_mem _ hmem)).mono hle
      · exact fun result c'' _ h => ⟨h.1, .cons hconcat h.2⟩
      · exact fun _ hno hs hmax => hno hs (by omega)

theorem wf_build (hP : Family P) (hready : builder.Ready P c)
    (hempty : ∀ rope, Scanned builder.encoding #[] rope → P rope) :
    RopeM.WF c builder.build
      (fun rope c' => c'.live rope ∧ P rope ∧ Built P builder rope ∧ builder.Flushable)
      (fun _ => Sparing P → builder.len ≤ Size.max → ¬builder.Flushable) := by
  apply (wf_flushTail hP hready).bind
  intro builder' c' hle hresult
  obtain ⟨hbuilder, hflushed, hsum, -, hflushable⟩ := hresult
  split
  next hforest =>
    refine Rope.wf_ofBytes.mono ?_ ?_
    · intro rope c'' _ hresult
      obtain ⟨hlive, hscanned⟩ := hresult
      refine ⟨hlive, hempty rope ?_, .empty hflushed hforest hscanned, hflushable⟩
      exact hflushed.encoding_eq ▸ hscanned
    · intro _ hresult
      obtain ⟨-, hlt⟩ := hresult
      cases hlt
  next last earlier hforest =>
    have hready' := hbuilder.forest
    rw [hforest] at hready' hsum
    have hlen : last.rope.byteLen + forestLen earlier = builder.len := hsum
    have hlast := hready' last (List.mem_cons_self ..)
    have hearlier : ForestReady P c' earlier :=
      fun tree hmem => hready' tree (List.mem_cons_of_mem _ hmem)
    refine ((wf_joinTrees hP hlast hearlier).faults ?_).bind ?_
    · exact fun _ hno hs hmax _ => hno hs (hlen ▸ hmax)
    · intro rope c'' _ hresult
      obtain ⟨hrope, hassembled⟩ := hresult
      refine WF.emit fun c₃ hle₃ => WF.pure ⟨hle₃.live hrope.live, hrope.holds, ?_, hflushable⟩
      exact .trees hflushed hforest hassembled

theorem Ready.mono (h : builder.Ready P c) (hle : c ≤ c') : builder.Ready P c' :=
  ⟨h.forest.mono hle, fun tail htail => (h.tail tail htail).mono hle⟩

theorem ready_new (encoding : Encoding) (config : Config) : (new encoding config).Ready P c :=
  ⟨nofun, nofun⟩

end ByteRope.Builder
