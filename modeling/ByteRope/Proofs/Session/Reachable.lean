import ByteRope.Proofs.Builder.Composing
import ByteRope.Proofs.Rope.Collecting
import ByteRope.Proofs.Session.Holding

/-!
# Reachable sessions

A session is reachable by some deeds if commands that need no others lead to it, one after another,
from the session without names (`Session.Reachable`). Children of a rope can be taken out of it on
the way. For every reachable session there is a census that accounts for it
(`Session.Reachable.holds`).
-/

namespace ByteRope

open Rope (Made)
open SessionM

variable {may : Deed → Prop} {c : Census}

/-! ## What commands need -/

/-- The deeds that a recipe may take. -/
def Recipe.deeds : Recipe → List Deed
  | bytes _ encoding | empty encoding => [.scan encoding]
  | text _ => [.scan .utf8]
  | octets _ => [.scan .binary]
  | asciiOnlyLeaf _ encoding | validLeaf _ encoding => [.claim encoding]
  | invalidLeaf _ encoding _ => [.count encoding]
  | taggedLeaf _ tags => [.scan tags.encoding, .claim tags.encoding, .count tags.encoding]
  | copy _ => []
  | concat .. | chain .. => [.concat]
  | slice .. | slice? .. => [.slice]
  | taggedJoin .. | taggedView .. => [.tag]
  | toSevenBit .. | toSevenBit? .. | toBinary _ | toBinary? _ => [.transition]
  | resolve _ => [.resolve]
  | rebalance .. | build _ => [.concat, .rebuild]

/-- The deeds that a command may take, or lead to when a builder is done. -/
def Command.deeds : Command → List Deed
  | make recipe _ => recipe.deeds
  | newBuilder _ encoding _ => [.scan encoding]
  | ask _ | drop _ | pushRope .. | pushBytes .. | copyBuilder .. => []

/-- The sessions to which commands lead that need no other deeds, whatever function takes the
digests. -/
inductive Session.Reachable (may : Deed → Prop) : Session → Prop
  | start (digestOf : Encoding → Bytes → UInt64) : Reachable may (.start digestOf)
  | perform {session : Session} {command : Command} : Reachable may session →
    (∀ deed ∈ command.deeds, may deed) → Reachable may (session.perform command).2.2
  | reveal {session : Session} {name target : String} {rope child : Rope} :
    Reachable may session → session.ropes.get? name = some rope → child ∈ rope.children →
    Reachable may { session with ropes := session.ropes.set target child }

theorem Session.Reachable.empty : Session.empty.Reachable may := .start _

/-- The rope has a name in the session. -/
def Session.Names (session : Session) (rope : Rope) : Prop :=
  ∃ name, session.ropes.get? name = some rope

/-- What names stand for has a name. -/
theorem Session.names_of_mapM {session : Session} {names : List String} {ropes : List Rope}
    (h : names.mapM session.ropes.get? = some ropes) : ∀ rope ∈ ropes, session.Names rope := by
  induction names generalizing ropes with
  | nil =>
    cases h
    nofun
  | cons name names ih =>
    rw [List.mapM_cons] at h
    obtain ⟨rope, hget, h⟩ := Option.bind_eq_some_iff.mp h
    obtain ⟨rest, hrest, h⟩ := Option.bind_eq_some_iff.mp h
    cases h
    exact List.forall_mem_cons.mpr ⟨⟨name, hget⟩, ih hrest⟩

/-! ## Builders -/

theorem Builder.foldlM_byteLen {forest : List Builder.Tree} {sum total : Nat}
    (h : forest.foldlM (fun sum tree => Size.add sum tree.rope.byteLen) sum = .ok total) :
    total = sum + forestLen forest := by
  induction forest generalizing sum with
  | nil =>
    cases h
    rfl
  | cons tree earlier ih =>
    rw [List.foldlM_cons] at h
    cases hadd : Size.add sum tree.rope.byteLen with
    | error fault =>
      rw [hadd] at h
      cases h
    | ok next =>
      rw [hadd] at h
      have hsum : forestLen (tree :: earlier) = tree.rope.byteLen + forestLen earlier :=
        List.sum_cons
      rw [ih h, (Size.add_eq_ok_iff.mp hadd).2, hsum, Nat.add_assoc]

theorem Builder.len_le_of_byteLen {builder : Builder} {total : Nat}
    (h : builder.byteLen = .ok total) : builder.len ≤ Size.max := by
  unfold byteLen at h
  cases htrees : builder.forest.foldlM (fun sum tree => Size.add sum tree.rope.byteLen) 0 with
  | error fault =>
    rw [htrees] at h
    cases h
  | ok trees =>
    rw [htrees] at h
    have hlen := (Size.add_eq_ok_iff.mp h).1
    rwa [foldlM_byteLen htrees, Nat.zero_add] at hlen

theorem Builder.foldlM_byteLen_eq {forest : List Builder.Tree} {sum : Nat}
    (h : sum + forestLen forest ≤ Size.max) :
    forest.foldlM (fun sum tree => Size.add sum tree.rope.byteLen) sum =
      .ok (sum + forestLen forest) := by
  induction forest generalizing sum with
  | nil => rfl
  | cons tree earlier ih =>
    have hsum : forestLen (tree :: earlier) = tree.rope.byteLen + forestLen earlier := List.sum_cons
    rw [hsum, ← Nat.add_assoc] at h ⊢
    rw [List.foldlM_cons, Size.add_of_le (Nat.le_trans (Nat.le_add_right ..) h)]
    exact ih h

/-- The number of octets pushed can be told if it is a size. -/
theorem Builder.byteLen_eq {builder : Builder} (h : builder.len ≤ Size.max) :
    builder.byteLen = .ok builder.len := by
  have hforest : 0 + forestLen builder.forest ≤ Size.max := by
    rw [Nat.zero_add]
    exact Nat.le_trans (Nat.le_add_right ..) h
  unfold byteLen
  rw [foldlM_byteLen_eq hforest, Nat.zero_add]
  exact Size.add_of_le h

theorem Builder.Sound.push {builder : Builder} {piece : Rope} (h : builder.Sound may c)
    (hlive : c.live piece) (hmade : piece.Made may) :
    RopeM.WF c (builder.push piece)
      (fun builder' c' => builder'.Sound may c' ∧ Gains piece.content builder builder')
      fun _ => True := by
  refine (wf_push Rope.Made.family_building h.ready hlive hmade.building).mono ?_ fun _ _ => trivial
  intro builder' c' hle hresult
  obtain ⟨hready, hpushed, -, -⟩ := hresult
  obtain ⟨pieces, hpieces, hgrown⟩ := h.grown
  rw [← hpushed.encoding_eq, ← hpushed.config_eq] at hgrown
  refine ⟨⟨hready, hpushed.encoding_eq ▸ h.encoding, pieces ++ [piece], ?_, hgrown.push hpushed⟩,
    hpushed.gains (fun _ h => h.wf) hmade.wf⟩
  intro other hmem
  rcases List.mem_append.mp hmem with hold | hnew
  · exact hpieces other hold
  · rw [List.mem_singleton.mp hnew]
    exact hmade

theorem Builder.Sound.pushBytes {builder : Builder} {bytes : Bytes} (h : builder.Sound may c) :
    RopeM.WF c (builder.pushBytes bytes)
      (fun builder' c' => builder'.Sound may c' ∧ Gains bytes.toList builder builder')
      fun _ => True := by
  unfold Builder.pushBytes
  split
  next hempty =>
    rw [Array.isEmpty_iff.mp hempty]
    exact RopeM.WF.pure ⟨h, .refl builder⟩
  next =>
    refine (Rope.wf_ofBytes.faults fun _ _ => trivial).bind ?_
    intro piece c' hle hresult
    obtain ⟨hlive, hscanned⟩ := hresult
    have hcontent : piece.content = bytes.toList := by
      cases hscanned
      rfl
    exact hcontent ▸ (h.mono hle).push hlive (.scanned h.encoding hscanned)

/-- A step that takes in octets, again and again. -/
theorem Builder.Sound.iterate {builder : Builder} {step : Builder → RopeM Builder}
    {octets : List UInt8} (h : builder.Sound may c)
    (hstep : ∀ builder c', c ≤ c' → builder.Sound may c' → RopeM.WF c' (step builder)
      (fun builder' c'' => builder'.Sound may c'' ∧ Gains octets builder builder') fun _ => True)
    (count : Nat) :
    RopeM.WF c (RopeM.iterate step count builder)
      (fun builder' c' => builder'.Sound may c' ∧
        Gains (List.replicate count octets).flatten builder builder') fun _ => True := by
  induction count generalizing c builder with
  | zero => exact RopeM.WF.pure ⟨h, .refl builder⟩
  | succ count ih =>
    refine (hstep builder c c.le_refl h).bind fun next c' hle hresult => ?_
    obtain ⟨hsound, hgains⟩ := hresult
    refine (ih hsound fun builder c'' hle' =>
      hstep builder c'' (Census.le_trans hle hle')).results ?_
    intro builder' c'' _ hresult
    obtain ⟨hsound', hgains'⟩ := hresult
    exact ⟨hsound', hgains.trans hgains'⟩

theorem Builder.Sound.pushTimes {builder : Builder} {piece : Rope} (h : builder.Sound may c)
    (hlive : c.live piece) (hmade : piece.Made may) (count : Nat) :
    RopeM.WF c (builder.pushTimes piece count)
      (fun builder' c' => builder'.Sound may c' ∧
        Gains (List.replicate count piece.content).flatten builder builder') fun _ => True :=
  h.iterate (fun _ _ hle h => h.push (hle.live hlive) hmade) count

theorem Builder.Sound.pushBytesTimes {builder : Builder} {bytes : Bytes} (h : builder.Sound may c)
    (count : Nat) :
    RopeM.WF c (builder.pushBytesTimes bytes count)
      (fun builder' c' => builder'.Sound may c' ∧
        Gains (List.replicate count bytes.toList).flatten builder builder') fun _ => True :=
  h.iterate (fun _ _ _ h => h.pushBytes) count

theorem Builder.Sound.build {builder : Builder} (h : builder.Sound may c) (hconcat : may .concat)
    (hrebuild : may .rebuild) :
    RopeM.WF c builder.build (fun rope c' => c'.live rope ∧ rope.Made may) fun _ => True := by
  refine (wf_build Rope.Made.family_building h.ready fun rope hscanned => ?_).mono ?_
    fun _ _ => trivial
  · exact .scanned (.inl h.encoding) hscanned
  · intro rope c' _ hresult
    obtain ⟨hlive, hmade, -, -⟩ := hresult
    exact ⟨hlive, hmade.of_building hconcat hrebuild⟩

theorem Builder.sound_new {encoding : Encoding} (h : may (.scan encoding)) (config : Config) :
    (Builder.new encoding config).Sound may c :=
  ⟨ready_new encoding config, h, [], nofun, .new⟩

/-! ## Recipes -/

/-- An operation on a rope with a name. -/
theorem wf_ofRope {operation : Rope → RopeM Rope} {Q : Rope → Rope → Prop}
    {E : Rope → Fault → Prop} (name : String)
    (hwf : ∀ {c : Census} {rope : Rope}, c.live rope →
      RopeM.WF c (operation rope) (fun rope' c' => c'.live rope' ∧ Q rope rope') (E rope))
    (hmade : ∀ {rope rope' : Rope}, rope.Made may → Q rope rope' → rope'.Made may) :
    SessionM.WF may c (rope name >>= fun rope => onStore (operation rope))
      fun rope c' => c'.live rope ∧ rope.Made may :=
  (WF.rope name).bind fun _ _ _ hrope =>
    WF.onStore ((hwf hrope.1).results fun _ _ _ hq => ⟨hq.1, hmade hrope.2 hq.2⟩)

/-- An operation on a rope with a name that can be refused. -/
theorem wf_ofRope? {operation : Rope → RopeM (Except Refusal Rope)} {Q : Rope → Rope → Prop}
    {R : Rope → Except Refusal Rope → Prop} {E : Rope → Fault → Prop} (name : String)
    (hwf : ∀ {c : Census} {rope : Rope}, c.live rope →
      RopeM.WF c (operation rope) (fun result c' => (∀ rope', result = .ok rope' →
        c'.live rope' ∧ Q rope rope') ∧ R rope result) (E rope))
    (hmade : ∀ {rope rope' : Rope}, rope.Made may → Q rope rope' → rope'.Made may) :
    SessionM.WF may c (rope name >>= fun rope => careful (operation rope))
      fun rope c' => c'.live rope ∧ rope.Made may :=
  (WF.rope name).bind fun _ _ _ hrope =>
    WF.careful ((hwf hrope.1).results fun _ _ _ hq rope' hok =>
      ⟨(hq.1 rope' hok).1, hmade hrope.2 (hq.1 rope' hok).2⟩)

/-- An operation on two ropes with names. -/
theorem wf_ofRopes {operation : Rope → Rope → RopeM Rope} {Q : Rope → Rope → Rope → Prop}
    {E : Rope → Rope → Fault → Prop} (left right : String)
    (hwf : ∀ {c : Census} {l r : Rope}, c.live l → c.live r →
      RopeM.WF c (operation l r) (fun rope' c' => c'.live rope' ∧ Q l r rope') (E l r))
    (hmade : ∀ {l r rope' : Rope}, l.Made may → r.Made may → Q l r rope' → rope'.Made may) :
    SessionM.WF may c
      (rope left >>= fun l => rope right >>= fun r => onStore (operation l r))
      fun rope c' => c'.live rope ∧ rope.Made may :=
  (WF.rope left).bind fun _ _ _ hl => (WF.rope right).bind fun _ _ hle hr =>
    WF.onStore ((hwf (hle.live hl.1) hr.1).results fun _ _ _ hq =>
      ⟨hq.1, hmade hl.2 hr.2 hq.2⟩)

/-- A rope made by the recipe was made by deeds that the recipe may take. -/
theorem Recipe.wf_perform (recipe : Recipe) (hmay : ∀ deed ∈ recipe.deeds, may deed) :
    SessionM.WF may c recipe.perform fun rope c' => c'.live rope ∧ rope.Made may := by
  have hscan {encoding : Encoding} (bytes : Bytes) (h : may (.scan encoding)) :
      SessionM.WF may c (onStore (Rope.ofBytes bytes encoding))
        fun rope c' => c'.live rope ∧ rope.Made may :=
    WF.onStore (Rope.wf_ofBytes.results fun _ _ _ hq => ⟨hq.1, .scanned h hq.2⟩)
  have hone {deed : Deed} (h : recipe.deeds = [deed]) : may deed :=
    hmay deed (h ▸ List.mem_singleton_self deed)
  cases recipe with
  | bytes content encoding => exact hscan content (hone rfl)
  | text content => exact hscan _ (hone rfl)
  | octets content => exact hscan content (hone rfl)
  | empty encoding => exact hscan #[] (hone rfl)
  | asciiOnlyLeaf content encoding =>
    exact WF.onStore (Rope.wf_asciiOnlyLeaf.results fun _ _ _ hq =>
      ⟨hq.1, .claimed (hone rfl) hq.2⟩)
  | validLeaf content encoding =>
    exact WF.onStore (Rope.wf_validLeaf.results fun _ _ _ hq => ⟨hq.1, .claimed (hone rfl) hq.2⟩)
  | invalidLeaf content encoding charLen =>
    exact WF.onStore (Rope.wf_invalidLeaf.results fun _ _ _ hq => ⟨hq.1, .counted (hone rfl) hq.2⟩)
  | taggedLeaf content tags =>
    refine WF.onStore (Rope.wf_taggedLeaf.results fun _ _ _ hq => ⟨hq.1, ?_⟩)
    rcases hq.2 with h | h | h
    · exact .scanned (hmay _ (by simp [deeds])) h
    · exact .claimed (hmay _ (by simp [deeds])) h
    · exact .counted (hmay _ (by simp [deeds])) h
  | copy name => exact WF.rope name
  | concat left right policy =>
    exact wf_ofRopes left right Rope.wf_concat fun hl hr h => .concatenated (hone rfl) hl hr h
  | taggedJoin left right encoding range depth balanced =>
    exact wf_ofRopes left right (fun hl hr => Rope.wf_taggedJoin' hl hr ..) fun hl hr h =>
      .joined (hone rfl) hl hr h
  | chain name piece front policy count =>
    refine (WF.rope name).bind fun l c₁ _ hl => (WF.rope piece).bind fun r c₂ hle hr => ?_
    refine WF.onStore (E := fun _ => True)
      (RopeM.WF.iterate (fun longer c₃ hle' hlonger => ?_) count ⟨hle.live hl.1, hl.2⟩)
    have hpiece := hle'.live hr.1
    split
    · refine (Rope.wf_concat hpiece hlonger.1).mono (fun _ _ _ hq => ⟨hq.1, ?_⟩) fun _ _ => trivial
      exact .concatenated (hone rfl) hr.2 hlonger.2 hq.2
    · refine (Rope.wf_concat hlonger.1 hpiece).mono (fun _ _ _ hq => ⟨hq.1, ?_⟩) fun _ _ => trivial
      exact .concatenated (hone rfl) hlonger.2 hr.2 hq.2
  | slice name offset len =>
    exact wf_ofRope name Rope.wf_slice fun h hq => .sliced (hone rfl) h hq.1 hq.2
  | slice? name offset len =>
    exact wf_ofRope? name Rope.wf_slice? fun h hq => .sliced (hone rfl) h hq.1 hq.2
  | taggedView name tags offset len =>
    exact wf_ofRope name Rope.wf_taggedView fun h hq => .shown (hone rfl) h hq
  | toSevenBit name encoding =>
    exact wf_ofRope name Rope.wf_toSevenBit fun h hq => .transitioned (hone rfl) h hq
  | toSevenBit? name encoding =>
    exact wf_ofRope? name Rope.wf_toSevenBit? fun h hq => .transitioned (hone rfl) h hq
  | toBinary name =>
    exact wf_ofRope name Rope.wf_toBinary fun h hq => .transitioned (hone rfl) h hq
  | toBinary? name =>
    exact wf_ofRope? name Rope.wf_toBinary? fun h hq => .transitioned (hone rfl) h hq
  | resolve name =>
    exact wf_ofRope name Rope.wf_resolve fun h hq => .resolved (hone rfl) h hq
  | rebalance name policy =>
    refine (WF.rope name).bind fun rope c₁ _ hrope => ?_
    have hP := Made.family (hmay .concat (by simp [deeds])) (hmay .rebuild (by simp [deeds]))
    refine WF.onStore ((Rope.wf_rebalance (hP.concat policy) hrope.1 (hP.settle hrope.2)).results
      fun _ _ _ hq => ⟨hq.1, ?_⟩)
    exact hq.2.1.holds hP hrope.2
  | build name =>
    refine (WF.takeBuilder name).bind fun builder c₁ _ hkept => ?_
    exact WF.onStore (hkept.toSound.build (hmay .concat (by simp [deeds]))
      (hmay .rebuild (by simp [deeds])))

/-! ## Questions -/

theorem wf_builderReply (builder : Builder) :
    SessionM.WF may c (builderReply builder) fun _ _ => builder.len ≤ Size.max := by
  refine (WF.onStore (Q := fun _ _ => builder.len ≤ Size.max) (E := fun _ => True) ?_).bind
    fun _ _ _ h => WF.pure h
  cases h : builder.byteLen with
  | ok total => exact RopeM.WF.of_eq rfl (Builder.len_le_of_byteLen h)
  | error fault => exact RopeM.WF.throw trivial

theorem wf_insertNamed {ropes : RopeSet} (hropes : ropes.Sound c) (name : String) :
    SessionM.WF may c (insertNamed ropes name) fun ropes' c' => ropes'.Sound c' :=
  (WF.rope name).bind fun _ _ hle hrope =>
    WF.onStore ((RopeSet.wf_insert (hropes.mono hle) hrope.1).results fun _ _ _ hq => hq.1)

theorem Query.wf_perform (query : Query) :
    SessionM.WF may c query.perform fun _ _ => True := by
  cases query with
  | rope name => exact (WF.rope name).bind fun _ _ _ _ => WF.pure trivial
  | flatten name =>
    exact (WF.rope name).bind fun _ _ _ hrope => WF.answer (Rope.wf_flatten hrope.1) _
  | byteAt name index =>
    refine (WF.rope name).bind fun rope c₁ _ hrope => ?_
    cases hbyte : rope.content[index]? with
    | some byte => exact WF.answer_eq (Rope.byteAt_eq hrope.1 hbyte) _
    | none =>
      refine WF.answer_error (Rope.byteAt_of_le hrope.1 ?_) _
      exact (c₁.wf hrope.1).length_content ▸ List.getElem?_eq_none_iff.mp hbyte
  | byte? name index =>
    exact (WF.rope name).bind fun _ _ _ hrope => WF.answer_eq (Rope.byte?_eq hrope.1 index) _
  | allBytes name =>
    refine (WF.rope name).bind fun rope c₁ _ hrope => ?_
    have hbytes := Rope.allBytes_eq hrope.1
    split at hbytes
    · exact WF.answer_eq hbytes _
    · exact WF.answer_error hbytes _
  | chunks name =>
    refine (WF.rope name).bind fun rope c₁ _ hrope => ?_
    obtain ⟨_, hchunks, -⟩ := Rope.chunks_eq hrope.1
    exact WF.answer_eq hchunks _
  | copyRange name offset len =>
    refine (WF.rope name).bind fun rope c₁ _ hrope => ?_
    refine (WF.careful (Q := fun _ _ => True) (E := fun _ => True) ?_).bind fun _ _ _ _ =>
      WF.pure trivial
    by_cases hr : offset + len ≤ rope.byteLen
    · exact .of_eq (Rope.copyRange_eq hrope.1 hr) fun _ _ => trivial
    · exact .of_eq (Rope.copyRange_of_lt (Nat.lt_of_not_le hr) c₁.store) fun _ _ => trivial
  | lossyText name =>
    refine (WF.rope name).bind fun rope c₁ _ hrope => ?_
    refine WF.answer (Q := fun _ _ => True) (E := RopeM.Overlong rope.byteLen) ?_ _
    exact (Rope.wf_flatten hrope.1).bind fun _ _ _ _ => .pure trivial
  | equal left right =>
    exact (WF.rope left).bind fun _ _ _ hl => (WF.rope right).bind fun _ _ hle hr =>
      WF.answer_eq (Rope.equal_eq (hle.live hl.1) hr.1) _
  | sameDigest left right =>
    refine (WF.rope left).bind fun l c₁ _ hl => (WF.rope right).bind fun r c₂ hle hr => ?_
    refine (WF.onStore (Rope.wf_digest (hle.live hl.1))).bind fun _ c₃ hle' _ => ?_
    exact WF.answer (Rope.wf_digest (hle'.live hr.1)) _
  | sameNode left right =>
    exact (WF.rope left).bind fun _ _ _ _ => (WF.rope right).bind fun _ _ _ _ => WF.pure trivial
  | countDistinct names =>
    refine WF.bind (Q := fun ropes c' => ropes.Sound c') ?_ fun _ _ _ _ => WF.pure trivial
    have hempty : RopeSet.empty.Sound c := nofun
    generalize RopeSet.empty = ropes at hempty
    induction names generalizing ropes c with
    | nil => exact WF.pure hempty
    | cons name names ih =>
      exact (wf_insertNamed hempty name).bind fun _ _ _ hropes => ih _ hropes
  | materialized => exact WF.get fun _ _ => WF.pure trivial
  | builder name =>
    exact (WF.builder name).bind fun builder _ _ _ =>
      (wf_builderReply builder).mono fun _ _ _ _ => trivial

/-! ## Commands -/

theorem wf_changeBuilder {name : String} {change : Builder → RopeM Builder}
    (hchange : ∀ builder c', c ≤ c' → builder.Sound may c' →
      RopeM.WF c' (change builder) (fun builder' c'' => builder'.Sound may c'') fun _ => True) :
    SessionM.WF may c (changeBuilder name change) fun _ _ => True := by
  refine (WF.takeBuilder name).bind fun builder c₁ hle hkept => ?_
  refine (WF.onStore (hchange builder c₁ hle hkept.toSound)).bind fun changed c₂ _ hsound => ?_
  refine (wf_builderReply changed).bind fun reply c₃ hle₃ hlen => ?_
  exact (WF.keepBuilder ⟨hsound.mono hle₃, hlen⟩).bind fun _ _ _ _ => WF.pure trivial

theorem Command.wf_perform (command : Command) (hmay : ∀ deed ∈ command.deeds, may deed) :
    SessionM.WF may c command.perform fun _ _ => True := by
  cases command with
  | make recipe target? =>
    refine (Recipe.wf_perform recipe hmay).bind fun rope c₁ _ hrope => ?_
    cases target? with
    | none => exact WF.pure trivial
    | some target => exact (WF.keepRope hrope.1 hrope.2).bind fun _ _ _ _ => WF.pure trivial
  | ask query => exact query.wf_perform
  | drop name =>
    refine WF.get fun session hs => ?_
    exact (WF.set (hs.eraseRope name)).bind fun _ _ _ _ => WF.pure trivial
  | newBuilder name encoding config =>
    refine (WF.keepBuilder ⟨Builder.sound_new ?_ config, Nat.zero_le _⟩).bind fun _ _ _ _ =>
      WF.pure trivial
    exact hmay _ (List.mem_singleton_self _)
  | pushRope name piece count =>
    refine (WF.rope piece).bind fun rope c₁ _ hrope => ?_
    refine wf_changeBuilder fun builder c₂ hle hsound => ?_
    exact (hsound.pushTimes (hle.live hrope.1) hrope.2 count).results fun _ _ _ hq => hq.1
  | pushBytes name content count =>
    refine wf_changeBuilder fun builder c₁ _ hsound => ?_
    exact (hsound.pushBytesTimes count).results fun _ _ _ hq => hq.1
  | copyBuilder name target =>
    refine (WF.builder name).bind fun builder c₁ _ hkept => ?_
    refine (WF.keepBuilder hkept).bind fun _ _ _ _ => ?_
    exact (wf_builderReply builder).mono fun _ _ _ _ => trivial

/-! ## Sessions -/

/-- A census that accounts for a session goes on through every command. -/
theorem Session.Holds.perform {session : Session} {command : Command} (h : session.Holds may c)
    (hmay : ∀ deed ∈ command.deeds, may deed) :
    ∃ c', c ≤ c' ∧ Session.Holds may c' (session.perform command).2.2 := by
  have hrun := command.wf_perform hmay session h
  unfold Session.perform
  split at hrun
  next hresult =>
    obtain ⟨c', hle, hholds, -⟩ := hrun
    obtain ⟨c'', hle', hholds'⟩ := hholds.quiet
    rw [hresult]
    exact ⟨c'', Census.le_trans hle hle', hholds'⟩
  next hresult =>
    obtain ⟨c', hle, hholds⟩ := hrun
    obtain ⟨c'', hle', hholds'⟩ := hholds.quiet
    rw [hresult]
    exact ⟨c'', Census.le_trans hle hle', hholds'⟩

theorem Session.Holds.reveal {session : Session} {name : String} {rope child : Rope}
    (h : session.Holds may c) (hget : session.ropes.get? name = some rope)
    (hchild : child ∈ rope.children) (target : String) :
    Session.Holds may c { session with ropes := session.ropes.set target child } := by
  obtain ⟨hlive, hmade⟩ := h.ropes hget
  exact h.setRope (c.closed hlive hchild) (hmade.of_within (.of_child hchild)) target

/-- A census accounts for every reachable session. -/
theorem Session.Reachable.holds {session : Session} (h : session.Reachable may) :
    ∃ c, session.Holds may c := by
  induction h with
  | start digestOf => exact ⟨.empty digestOf, rfl, nofun, nofun⟩
  | perform _ hmay ih =>
    obtain ⟨c, hholds⟩ := ih
    obtain ⟨c', -, hholds'⟩ := hholds.perform hmay
    exact ⟨c', hholds'⟩
  | reveal _ hget hchild ih =>
    obtain ⟨c, hholds⟩ := ih
    exact ⟨c, hholds.reveal hget hchild _⟩

/-- A session that is reachable by some deeds is reachable by more. -/
theorem Session.Reachable.mono {may' : Deed → Prop} {session : Session}
    (hmay : ∀ deed, may deed → may' deed) (h : session.Reachable may) :
    session.Reachable may' := by
  induction h with
  | start digestOf => exact .start digestOf
  | perform _ hdeeds ih => exact ih.perform fun deed hmem => hmay deed (hdeeds deed hmem)
  | reveal _ hget hchild ih => exact ih.reveal hget hchild

/-- The session after commands, one after another. -/
def Session.performAll (session : Session) (commands : List Command) : Session :=
  commands.foldl (fun session command => (session.perform command).2.2) session

theorem Session.Reachable.performAll {session : Session} {commands : List Command}
    (h : session.Reachable may)
    (hmay : ∀ command ∈ commands, ∀ deed ∈ command.deeds, may deed) :
    (session.performAll commands).Reachable may := by
  induction commands generalizing session with
  | nil => exact h
  | cons command commands ih =>
    exact ih (h.perform (hmay command (List.mem_cons_self ..))) fun other hmem =>
      hmay other (List.mem_cons_of_mem _ hmem)

/-! ## Making ropes on the way -/

namespace Session.Reachable

variable {session : Session} {name other : String} {rope left right : Rope}

/-- What a recipe makes can be given a name. -/
theorem make {session' : Session} {recipe : Recipe} (h : session.Reachable may)
    (hmay : ∀ deed ∈ recipe.deeds, may deed)
    (hrun : recipe.perform session = .ok rope session') (target : String) :
    ∃ session'' : Session, session''.Reachable may ∧
      session''.ropes = session'.ropes.set target rope := by
  have hreach : Session.Reachable may (session.perform (.make recipe (some target))).2.2 :=
    h.perform hmay
  have hcommand : (Command.make recipe (some target)).perform session =
      .ok (.rope rope) { session' with ropes := session'.ropes.set target rope } := by
    unfold Command.perform
    change EStateM.bind _ _ _ = _
    rw [EStateM.bind, hrun]
    rfl
  refine ⟨_, hreach, ?_⟩
  unfold Session.perform
  rw [hcommand]

/-- What a computation on the store has made can be given a name. -/
theorem keep {computation : RopeM Rope} {store : Store} (h : session.Reachable may)
    (recipe : Recipe) (hmay : ∀ deed ∈ recipe.deeds, may deed)
    (hrecipe : recipe.perform session = onStore computation session)
    (hrun : computation session.store = .ok rope store) (target : String) :
    ∃ session' : Session, session'.Reachable may ∧
      session'.ropes = session.ropes.set target rope := by
  have hsession : onStore computation session = .ok rope { session with store } := by
    obtain ⟨old, ropes, builders⟩ := session
    rw [onStore, hrun]
  exact h.make hmay (hrecipe.trans hsession) target

/-- What a computation on the store makes can be given a name if nothing is in its way. -/
theorem run {computation : RopeM Rope} {Q : Rope → Prop} (h : session.Reachable may)
    (recipe : Recipe) (hmay : ∀ deed ∈ recipe.deeds, may deed)
    (hrecipe : recipe.perform session = onStore computation session)
    (hwf : ∀ c, session.Holds may c →
      RopeM.WF c computation (fun rope _ => Q rope) fun _ => False) (target : String) :
    ∃ (session' : Session) (rope : Rope), session'.Reachable may ∧
      session'.ropes = session.ropes.set target rope ∧ Q rope := by
  obtain ⟨c, hholds⟩ := h.holds
  rcases (hwf c hholds).outcome with ⟨rope, c', hok, -, hQ⟩ | ⟨_, _, -, hfault⟩
  · obtain ⟨session', hreach, hropes⟩ := h.keep recipe hmay hrecipe (hholds.store ▸ hok) target
    exact ⟨session', rope, hreach, hropes, hQ⟩
  · exact hfault.elim

theorem run_rope_bind {α : Type} (hget : session.ropes.get? name = some rope)
    (f : Rope → SessionM α) : (SessionM.rope name >>= f) session = f rope session := by
  rw [run_bind, run_rope, hget]

/-- Octets that fit a buffer can be scanned into a leaf. -/
theorem scan (h : session.Reachable may) (encoding : Encoding) (hmay : may (.scan encoding))
    {bytes : Bytes} (hsize : bytes.size ≤ Size.maxBuffer) (target : String) :
    ∃ (session' : Session) (rope : Rope), session'.Reachable may ∧
      session'.ropes = session.ropes.set target rope ∧ Rope.Scanned encoding bytes rope :=
  h.run (.bytes bytes encoding) (by simpa [Recipe.deeds] using hmay) rfl
    (fun _ _ => Rope.wf_ofBytes.mono (fun _ _ _ hq => hq.2)
      fun _ hlong => absurd hsize (Nat.not_le_of_lt hlong.2)) target

/-- Ropes can be put one after the other as long as the sums of their lengths are sizes. -/
theorem concat (h : session.Reachable may) (hmay : may .concat)
    (hl : session.ropes.get? name = some left) (hr : session.ropes.get? other = some right)
    (hbytes : left.byteLen + right.byteLen ≤ Size.max)
    (hchars : left.charLen + right.charLen ≤ Size.max) (policy : BalancePolicy) (target : String) :
    ∃ (session' : Session) (rope : Rope), session'.Reachable may ∧
      session'.ropes = session.ropes.set target rope ∧
      Rope.Concatenated left right policy rope := by
  refine h.run (.concat name other policy) (by simpa [Recipe.deeds] using hmay) ?_
    (fun c hholds => (Rope.wf_concat (hholds.ropes hl).1 (hholds.ropes hr).1).mono
      (fun _ _ _ hq => hq.2) ?_) target
  · exact (run_rope_bind hl _).trans (run_rope_bind hr _)
  · intro _ hcases
    rcases hcases with ⟨-, hlt⟩ | ⟨-, hlt⟩
    · exact absurd hbytes (Nat.not_le_of_lt hlt)
    · exact absurd hchars (Nat.not_le_of_lt hlt)

theorem resolve (h : session.Reachable may) (hmay : may .resolve)
    (hget : session.ropes.get? name = some rope) (target : String) :
    ∃ (session' : Session) (rope' : Rope), session'.Reachable may ∧
      session'.ropes = session.ropes.set target rope' ∧ Rope.Resolved rope rope' :=
  h.run (.resolve name) (by simpa [Recipe.deeds] using hmay) (run_rope_bind hget _)
    (fun _ hholds => (Rope.wf_resolve (hholds.ropes hget).1).mono (fun _ _ _ hq => hq.2)
      fun _ => id) target

end Session.Reachable

end ByteRope
