import ByteRope.Proofs.Session.Marking

/-!
# What runs let nodes remember

Copying content together is put off until somebody asks for it in one buffer, and then one node is
affected. In every run a buffer that a node has stays and holds the content of the node, and a node
gets one only from a step that marks it (`Session.Reachable.remembers`). Changing the tags of a rope
hands on the buffer that there is; from then on the two roots remember each for itself.
-/

namespace ByteRope

variable {may : Deed → Prop} {c : Census} {marks : NodeId → Prop} {session session' : Session}
  {name : String} {rope new : Rope} {recipe : Recipe} {target? : Option String}

/-! ## New roots -/

/-- The rope that a recipe changes the tags of. -/
def Recipe.retags? : Recipe → Option String
  | .toSevenBit name _ | .toSevenBit? name _ | .toBinary name | .toBinary? name
  | .resolve name => some name
  | _ => none

theorem SessionM.exists_of_careful {α : Type} {computation : RopeM (Except Refusal α)} {a : α}
    (h : SessionM.careful computation session = .ok a session') :
    computation session.store = .ok (.ok a) session'.store := by
  unfold SessionM.careful at h
  rw [SessionM.run_bind] at h
  cases hrun : onStore computation session with
  | error => rw [hrun] at h; cases h
  | ok answer session₁ =>
    rw [hrun] at h
    cases answer with
    | ok b =>
      cases h
      exact (exists_of_onStore hrun).1
    | error refusal => cases h

/-- Only resolving can leave the rope as it is; otherwise there is a new root. -/
theorem Recipe.renewed (hholds : session.Holds may c) (hname : recipe.retags? = some name)
    (hget : session.ropes.get? name = some rope)
    (hrun : recipe.perform session = .ok new session') :
    (recipe = .resolve name ∧ new = rope) ∨ rope.Renewed session.store new session'.store := by
  have hlive := (hholds.ropes hget).1
  have hnamed {f : Rope → SessionM Rope}
      (h : (SessionM.rope name >>= f) session = .ok new session') :
      f rope session = .ok new session' :=
    (Session.Reachable.run_rope_bind hget f).symm.trans h
  have hplain {computation : RopeM Rope}
      (h : SessionM.onStore computation session = .ok new session') :
      computation c.store = .ok new session'.store :=
    hholds.store ▸ (SessionM.exists_of_onStore h).1
  have hcareful {computation : RopeM (Except Refusal Rope)}
      (h : SessionM.careful computation session = .ok new session') :
      computation c.store = .ok (.ok new) session'.store :=
    hholds.store ▸ SessionM.exists_of_careful h
  rw [hholds.store]
  cases recipe with
  | toSevenBit other encoding =>
    cases hname
    have hmirrored := RopeM.exists_of_insist (hplain (hnamed hrun))
    exact .inr (Rope.renewed_of_toSevenBit? hlive hmirrored)
  | toSevenBit? other encoding =>
    cases hname
    exact .inr (Rope.renewed_of_toSevenBit? hlive (hcareful (hnamed hrun)))
  | toBinary other =>
    cases hname
    have hmirrored := RopeM.exists_of_insist (hplain (hnamed hrun))
    exact .inr (Rope.renewed_of_toBinary? hlive hmirrored)
  | toBinary? other =>
    cases hname
    exact .inr (Rope.renewed_of_toBinary? hlive (hcareful (hnamed hrun)))
  | resolve other =>
    cases hname
    have hresolved := Rope.renewed_of_resolve hlive (hplain (hnamed hrun))
    exact hresolved.imp_left fun hsame => ⟨rfl, hsame⟩
  | _ => cases hname

theorem Command.run_make (recipe : Recipe) (target? : Option String) (session : Session) :
    (Command.make recipe target?).perform session =
      match recipe.perform session with
      | .ok made session' =>
        .ok (.rope made) (match target? with
          | none => session'
          | some target => { session' with ropes := session'.ropes.set target made })
      | .error failure session' => .error failure session' := by
  unfold Command.perform
  change EStateM.bind _ _ _ = _
  unfold EStateM.bind
  cases recipe.perform session <;> cases target? <;> rfl

/-- The rope that a command answers with was made by its recipe, and the cells are as it left
them. -/
theorem Recipe.exists_of_perform
    (h : (session.perform (.make recipe target?)).1 = .ok (.rope new)) :
    ∃ session', recipe.perform session = .ok new session' ∧
      (session.perform (.make recipe target?)).2.2.store.cells = session'.store.cells := by
  unfold Session.perform at h ⊢
  rw [Command.run_make] at h ⊢
  cases hrun : recipe.perform session with
  | error failure session' =>
    simp only [hrun] at h
    cases h
  | ok made session' =>
    simp only [hrun] at h ⊢
    cases h
    exact ⟨session', rfl, by cases target? <;> rfl⟩

/-! ## Sessions -/

/-- Of the nodes of the first session only those in `marks` have come to remember their content in
the second. What is remembered stays, and is the content. -/
structure Session.Remembers (session session' : Session) (marks : NodeId → Prop) : Prop where
  spares : session.store.Spares marks session'.store
  kept : ∀ {id : NodeId} {bytes : Bytes}, (session.store.cell id).bytes? = some bytes →
    (session'.store.cell id).bytes? = some bytes
  content : ∀ {rope node : Rope} {bytes : Bytes}, session'.Keeps rope → node.Within rope →
    (session'.store.cell node.id).bytes? = some bytes → bytes.toList = node.content

/-- The new root starts with the buffer that the old one has. Whatever happens later, a read of one
of them leaves the other as it is. -/
structure Session.HandsOn (may : Deed → Prop) (session after : Session) (rope new : Rope) :
    Prop where
  raw? : after.store.raw? new = session.store.raw? rope
  apart : ∀ {marks : NodeId → Prop} {later : Session}, after.GoesOn may marks later →
    ∀ warming : Warming, (later.warm rope warming).store.raw? new = later.store.raw? new ∧
      (later.warm new warming).store.raw? rope = later.store.raw? rope

theorem Store.Spares.raw?_eq {store store' : Store} (h : store.Spares marks store')
    (hid : rope.id < store.cells.size) (hmarks : ¬marks rope.id) :
    store'.raw? rope = store.raw? rope := by
  cases rope with
  | leaf => rfl
  | join | view => exact h.bytes _ hid hmarks

theorem Session.remembers_of_spares {c' : Census} (h : session.Holds may c)
    (h' : session'.Holds may c') (hle : c ≤ c')
    (hspares : session.store.Spares marks session'.store) : session.Remembers session' marks where
  spares := hspares
  kept hcell := by
    rw [h.store] at hcell
    rw [h'.store]
    exact hle.bytes hcell
  content hkeeps hn hcell := by
    rw [h'.store] at hcell
    exact (c'.bytes (c'.live_of_within (h'.live_of_keeps hkeeps) hn) hcell).1

theorem Session.Holds.handsOn {after : Session} (h : session.Holds may c) (hlive : c.live rope)
    (hrenewed : rope.Renewed session.store new after.store) (hafter : ∃ c', after.Holds may c') :
    Session.HandsOn may session after rope new where
  raw? := hrenewed.raw?
  apart hgoes warming := by
    obtain ⟨c', hafter⟩ := hafter
    have hsize := (hgoes.spares hafter).size
    rw [hrenewed.size] at hsize
    have hrope : rope.id < session.store.cells.size := h.store ▸ c.named hlive
    have hnew : new.id < session.store.cells.size + 1 := hrenewed.id ▸ Nat.lt_succ_self _
    have hne : rope.id ≠ new.id := Nat.ne_of_lt (hrenewed.id ▸ hrope)
    constructor
    · exact (Session.spares_warm _ rope warming).raw?_eq (Nat.lt_of_lt_of_le hnew hsize) hne.symm
    · have hold := Nat.lt_of_lt_of_le (Nat.lt_succ_of_lt hrope) hsize
      exact (Session.spares_warm _ new warming).raw?_eq hold hne

/-- From every reachable session, in every run on and in every command after it, only the nodes that
are marked come to remember their content, and what is remembered stays. A buffer of the caller's is
filled without a mark. Changing the tags of a rope hands on what it remembers to a new root, and
nothing else after that. -/
theorem Session.Reachable.remembers (h : session.Reachable may)
    (hgoes : session.GoesOn may marks session') :
    session.Remembers session' marks ∧
      (∀ command : Command, (∀ deed ∈ command.deeds, may deed) →
        session'.Remembers (session'.perform command).2.2 (command.Marks session')) ∧
      (∀ (rope : Rope) (offset : Nat) (buffer : Bytes),
        RopeM.Touches (fun _ => False) (rope.copyInto offset buffer)) ∧
      ∀ (recipe : Recipe) (target? : Option String) (name : String) (rope new : Rope),
        (∀ deed ∈ recipe.deeds, may deed) → recipe.retags? = some name →
        session'.ropes.get? name = some rope →
        (session'.perform (.make recipe target?)).1 = .ok (.rope new) →
        (recipe = .resolve name ∧ new = rope) ∨
          Session.HandsOn may session' (session'.perform (.make recipe target?)).2.2 rope new := by
  obtain ⟨c, hholds⟩ := h.holds
  obtain ⟨c', hle, hholds'⟩ := hgoes.holds hholds
  refine ⟨remembers_of_spares hholds hholds' hle (hgoes.spares hholds), fun command hmay => ?_,
    fun _ _ _ => Rope.touches_copyInto, ?_⟩
  · obtain ⟨c'', hle', hholds''⟩ := hholds'.perform hmay
    exact remembers_of_spares hholds' hholds'' hle' (hholds'.spares hmay)
  · intro recipe target? name rope new hmay hname hget hreply
    have hafter : (∀ deed ∈ (Command.make recipe target?).deeds, may deed) := hmay
    obtain ⟨c'', -, hholds''⟩ := hholds'.perform hafter
    obtain ⟨made, hrun, hcells⟩ := Recipe.exists_of_perform hreply
    refine (Recipe.renewed hholds' hname hget hrun).imp_right fun hrenewed => ?_
    have hmoved : rope.Renewed session'.store new
        (session'.perform (.make recipe target?)).2.2.store := by
      refine ⟨hrenewed.id, hcells ▸ hrenewed.size, ?_⟩
      rw [← hrenewed.raw?]
      cases new with
      | leaf => rfl
      | join | view => simp only [Store.raw?, Store.cell, hcells]
    exact hholds'.handsOn (hholds'.ropes hget).1 hmoved ⟨c'', hholds''⟩

/-- A join of a join with itself is copied together. The inner one, though it is half of what is
copied, still has no buffer; the join under another encoding starts with one. -/
theorem remembers_doubled :
    ∃ (session session' : Session) (marks : NodeId → Prop) (inner outer new : Rope),
      (session.Reachable fun _ => True) ∧ session.GoesOn (fun _ => True) marks session' ∧
      session.ropes.get? "i" = some inner ∧ session'.ropes.get? "r" = some outer ∧
      session'.store.raw? inner = none ∧ (session'.store.raw? outer).isSome = true ∧
      (session'.perform (.make (.toSevenBit "r" .latin1) none)).1 = .ok (.rope new) ∧
      Session.HandsOn (fun _ => True) session'
        (session'.perform (.make (.toSevenBit "r" .latin1) none)).2.2 outer new := by
  let session : Session := Session.empty.performAll [
    .make (.text "a") (some "a"), .make (.concat "a" "a" .standard) (some "i"),
    .make (.concat "i" "i" .standard) (some "r")]
  let session' : Session := (session.perform (.ask (.flatten "r"))).2.2
  have h : session.Reachable fun _ => True :=
    Session.Reachable.empty.performAll fun _ _ _ _ => trivial
  have hgoes : session.GoesOn (fun _ => True) _ session' := .perform .refl fun _ _ => trivial
  have hinner : (session.ropes.get? "i").map (fun rope =>
      (rope.id, session.store.cells.size, session.store.raw? rope)) = some (1, 3, none) := by
    decide +kernel
  have hroot : (session.ropes.get? "r").map Rope.id = some 2 := by decide +kernel
  have houter : (session'.ropes.get? "r").map (fun rope => (session'.store.raw? rope).isSome) =
      some true := by
    decide +kernel
  have hreply : (session'.perform (.make (.toSevenBit "r" .latin1) none)).1.map (fun
      | .rope _ => true
      | _ => false) = .ok true := by
    decide +kernel
  obtain ⟨inner, hgeti, hinner⟩ := Option.map_eq_some_iff.mp hinner
  obtain ⟨hid, hsize, hraw⟩ := by simpa only [Prod.mk.injEq] using hinner
  obtain ⟨outer, hgeto, houter⟩ := Option.map_eq_some_iff.mp houter
  obtain ⟨hremembers, -, -, hretags⟩ := h.remembers hgoes
  have hspared : session'.store.raw? inner = session.store.raw? inner := by
    refine hremembers.spares.raw?_eq (by rw [hid, hsize]; decide) ?_
    rintro (hfalse | ⟨rope, hget, hsame⟩)
    · exact hfalse
    · rw [hget, Option.map_some, hsame, hid] at hroot
      exact absurd (Option.some.inj hroot) (by decide)
  cases hanswer : (session'.perform (.make (.toSevenBit "r" .latin1) none)).1 with
  | error failure =>
    rw [hanswer] at hreply
    cases hreply
  | ok reply =>
    rw [hanswer] at hreply
    cases reply with
    | rope new =>
      refine ⟨session, session', _, inner, outer, new, h, hgoes, hgeti, hgeto, hspared.trans hraw,
        houter, hanswer, ?_⟩
      rcases hretags _ none "r" outer new (fun _ _ => trivial) rfl hgeto hanswer with
        ⟨heq, -⟩ | hhands
      · cases heq
      · exact hhands
    | _ => cases hreply

end ByteRope
