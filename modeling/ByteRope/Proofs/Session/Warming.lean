import ByteRope.Proofs.Session.Agreeing
import ByteRope.Proofs.Session.Structure

/-!
# Runs with reads on the way

Reads that make nodes remember their content or their digest can be put anywhere into a run, of any
rope that is in use. `Session.Run` lets them happen at every point; two runs of the same steps then
answer alike (`Session.Run.indistinguishable`). Each is compared with the run without such reads, by
induction over the run: a step is taken on both sides, a read on one side only.
-/

namespace ByteRope

variable {t : Twins} {session session' : Session} {rope node : Rope}

/-! ## Runs -/

/-- A read that a rope remembers. -/
inductive Warming where
  | flatten
  | digest
  | lossyText

/-- Reads the rope. -/
def Warming.read (rope : Rope) : Warming → RopeM Unit
  | flatten => do
    let _ ← rope.flatten
    return ()
  | digest => do
    let _ ← rope.digest
    return ()
  | lossyText => do
    let _ ← rope.toLossyText
    return ()

theorem Warming.frugal_read (warming : Warming) (rope : Rope) :
    RopeM.Frugal (warming.read rope) := by
  cases warming with
  | flatten => exact rope.frugal_flatten.bind fun _ => .pure _
  | digest => exact rope.frugal_digest.bind fun _ => .pure _
  | lossyText => exact rope.frugal_toLossyText.bind fun _ => .pure _

theorem Warming.wf_read {c : Census} (h : c.live rope) (warming : Warming) :
    RopeM.WF c (warming.read rope) (fun _ _ => True) fun _ => True := by
  have hflatten : RopeM.WF c rope.flatten (fun bytes _ => rope.HeldBy bytes) fun _ => True :=
    (Rope.wf_flatten h).faults fun _ _ => trivial
  cases warming with
  | flatten => exact hflatten.bind fun _ _ _ _ => .pure trivial
  | digest =>
    exact ((Rope.wf_digest h).faults fun _ _ => trivial).bind fun _ _ _ _ => .pure trivial
  | lossyText =>
    refine RopeM.WF.bind (Q := fun _ _ => True) ?_ fun _ _ _ _ => .pure trivial
    exact hflatten.bind fun _ _ _ _ => .pure trivial

namespace Session

/-- One step of a run: a command, or a name for a child of a rope. -/
inductive Step where
  | perform (command : Command)
  | reveal (name target : String) (index : Nat)

/-- What a step answers, and the session after it. -/
def step (session : Session) : Step → Except Failure Reply × Session
  | .perform command =>
    let (answer, _, session) := session.perform command
    (answer, session)
  | .reveal name target index =>
    match (session.ropes.get? name).bind fun rope => rope.children[index]? with
    | some child => (.ok (.rope child), { session with ropes := session.ropes.set target child })
    | none => (.error (.unknownRope name), session)

/-- The session after a read of a rope, whatever has come of it. -/
def warm (session : Session) (rope : Rope) (warming : Warming) : Session :=
  match warming.read rope session.store with
  | .ok _ store | .error _ store => { session with store }

/-- The steps one after another from a session without names, with any reads in between. -/
inductive Run (digestOf : Encoding → Bytes → UInt64) :
    List Step → List (Except Failure Reply) → Session → Prop
  | start : Run digestOf [] [] (.start digestOf)
  | step {steps : List Step} {answers : List (Except Failure Reply)} {session : Session}
    (step : Step) : Run digestOf steps answers session →
    Run digestOf (steps ++ [step]) (answers ++ [(session.step step).1]) (session.step step).2
  | warm {steps : List Step} {answers : List (Except Failure Reply)} {session : Session}
    {rope node : Rope} (warming : Warming) : Run digestOf steps answers session →
    session.Keeps rope → node.Within rope →
    Run digestOf steps answers (session.warm node warming)

/-- The answers to the steps without any reads in between, and the session after them. -/
def runAll (digestOf : Encoding → Bytes → UInt64) (steps : List Step) :
    List (Except Failure Reply) × Session :=
  steps.foldl (fun (answers, session) step =>
    (answers ++ [(session.step step).1], (session.step step).2)) ([], .start digestOf)

variable {digestOf : Encoding → Bytes → UInt64}

theorem runAll_concat (steps : List Step) (step : Step) :
    runAll digestOf (steps ++ [step]) =
      ((runAll digestOf steps).1 ++ [((runAll digestOf steps).2.step step).1],
        ((runAll digestOf steps).2.step step).2) := by
  rw [runAll, List.foldl_concat]
  rfl

theorem run_runAll (steps : List Step) :
    Run digestOf steps (runAll digestOf steps).1 (runAll digestOf steps).2 := by
  induction steps using List.reverseRecOn with
  | nil => exact .start
  | append_singleton steps step ih =>
    rw [runAll_concat]
    exact ih.step step

end Session

/-! ## Answers -/

/-- The same failure, or replies that agree. -/
inductive AnswersAgree : Except Failure Reply → Except Failure Reply → Prop
  | ok {reply reply' : Reply} : reply.Agrees reply' → AnswersAgree (.ok reply) (.ok reply')
  | error {failure : Failure} : AnswersAgree (.error failure) (.error failure)

theorem AnswersAgree.symm {answer answer' : Except Failure Reply}
    (h : AnswersAgree answer answer') : AnswersAgree answer' answer := by
  cases h with
  | ok h => exact .ok h.symm
  | error => exact .error

theorem AnswersAgree.trans {answer answer' answer'' : Except Failure Reply}
    (h : AnswersAgree answer answer') (h' : AnswersAgree answer' answer'') :
    AnswersAgree answer answer'' := by
  cases h with
  | ok h =>
    cases h' with
    | ok h' => exact .ok (h.trans h')
  | error =>
    cases h'
    exact .error

/-- Answers that agree with the same ones agree. -/
theorem AnswersAgree.forall₂_of_both {plain answers answers' : List (Except Failure Reply)}
    (h : List.Forall₂ AnswersAgree plain answers) (h' : List.Forall₂ AnswersAgree plain answers') :
    List.Forall₂ AnswersAgree answers answers' := by
  induction h generalizing answers' with
  | nil =>
    cases h'
    exact .nil
  | cons hanswer _ ih =>
    cases h' with
    | cons hanswer' hrest => exact .cons (hanswer.symm.trans hanswer') (ih hrest)

/-! ## Sessions side by side -/

/-- The sessions give the same names to the same ropes and builders, over stores side by side. -/
structure Session.Alike (t : Twins) (session session' : Session) : Prop where
  left : session.store = t.left.store
  right : session'.store = t.right.store
  ropes : session'.ropes = session.ropes
  builders : session'.builders = session.builders
  accounts : t.Accounts session.ropes session.builders

namespace Session.Alike

theorem live_of_keeps (h : Alike t session session') (hkeeps : session.Keeps rope) :
    t.Live rope := by
  cases hkeeps with
  | named hget => exact h.accounts.ropes hget
  | tree hget hmem => exact (h.accounts.builders hget).forest _ hmem
  | tail hget htail => exact (h.accounts.builders hget).tail _ htail

theorem keeps_iff (h : Alike t session session') : session'.Keeps rope ↔ session.Keeps rope := by
  obtain ⟨store, ropes, builders⟩ := session
  obtain ⟨store', ropes', builders'⟩ := session'
  cases h.ropes
  cases h.builders
  constructor <;> intro hkeeps <;> cases hkeeps with
  | named hget => exact .named hget
  | tree hget hmem => exact .tree hget hmem
  | tail hget htail => exact .tail hget htail

theorem perform (h : Alike t session session') (command : Command) :
    ∃ t', Alike t' (session.perform command).2.2 (session'.perform command).2.2 ∧
      AnswersAgree (session.perform command).1 (session'.perform command).1 := by
  obtain ⟨store, ropes, builders⟩ := session
  obtain ⟨store', ropes', builders'⟩ := session'
  obtain ⟨rfl, rfl, rfl, rfl, haccounts⟩ := h
  obtain ⟨t', ropes', builders', -, haccounts', hends⟩ := command.answers_perform _ _ haccounts
  refine ⟨t'.quiet, ?_⟩
  unfold Session.perform
  rcases hends with ⟨reply, reply', hleft, hright, hagrees⟩ | ⟨failure, hleft, hright⟩
  · simp only [hleft, hright]
    exact ⟨⟨rfl, rfl, rfl, rfl, haccounts'.mono Twins.le_quiet⟩, .ok hagrees⟩
  · simp only [hleft, hright]
    exact ⟨⟨rfl, rfl, rfl, rfl, haccounts'.mono Twins.le_quiet⟩, .error⟩

theorem step (h : Alike t session session') (step : Step) :
    ∃ t', Alike t' (session.step step).2 (session'.step step).2 ∧
      AnswersAgree (session.step step).1 (session'.step step).1 := by
  cases step with
  | perform command => exact h.perform command
  | reveal name target index =>
    simp only [Session.step, h.ropes]
    cases hchild : (session.ropes.get? name).bind fun rope => rope.children[index]? with
    | none => exact ⟨t, h, .error⟩
    | some child =>
      obtain ⟨rope, hget, hmem⟩ := Option.bind_eq_some_iff.mp hchild
      have hlive := (h.accounts.ropes hget).of_within (.of_child (List.mem_of_getElem? hmem))
      exact ⟨t, ⟨h.left, h.right, rfl, h.builders, h.accounts.setRope hlive target⟩, .ok .same⟩

/-- A read on one side names no nodes there. -/
theorem warm (h : Alike t session session') (hlive : t.Live node) (warming : Warming) :
    ∃ t', Alike t' session (session'.warm node warming) := by
  obtain ⟨c, hle, hsize, hwarm⟩ : ∃ c, t.right ≤ c ∧
      c.store.cells.size = t.right.store.cells.size ∧
      session'.warm node warming = { session' with store := c.store } := by
    have hwf := warming.wf_read hlive.right
    have hfrugal := warming.frugal_read node t.right.store
    unfold RopeM.WF at hwf
    unfold Session.warm
    rw [h.right]
    cases hrun : warming.read node t.right.store <;> simp only [hrun] at hwf hfrugal <;>
      obtain ⟨c, rfl, hle, -⟩ := hwf <;> exact ⟨c, hle, hfrugal, rfl⟩
  rw [hwarm]
  exact ⟨t.goOn t.left.le_refl hle (t.size_eq.trans hsize.symm), h.left, rfl, h.ropes, h.builders,
    h.accounts.mono ⟨t.left.le_refl, hle⟩⟩

end Session.Alike

/-! ## Two runs -/

namespace Session

variable {digestOf : Encoding → Bytes → UInt64} {steps : List Step}
  {answers answers' : List (Except Failure Reply)}

/-- A run goes on beside the one without reads in between. -/
theorem Run.alike (h : Run digestOf steps answers session) :
    ∃ t, Alike t (runAll digestOf steps).2 session ∧
      List.Forall₂ AnswersAgree (runAll digestOf steps).1 answers := by
  induction h with
  | start =>
    exact ⟨⟨.empty digestOf, .empty digestOf, rfl, rfl⟩, ⟨rfl, rfl, rfl, rfl, nofun, nofun⟩, .nil⟩
  | step step _ ih =>
    obtain ⟨t, halike, hanswers⟩ := ih
    obtain ⟨t', halike', hanswer⟩ := halike.step step
    rw [runAll_concat]
    exact ⟨t', halike', List.rel_append hanswers (.cons hanswer .nil)⟩
  | warm warming _ hkeeps hn ih =>
    obtain ⟨t, halike, hanswers⟩ := ih
    have hlive := halike.live_of_keeps (halike.keeps_iff.mp hkeeps)
    obtain ⟨t', halike'⟩ := halike.warm (hlive.of_within hn) warming
    exact ⟨t', halike', hanswers⟩

/-- Two runs of the same steps, with any reads in between, answer alike and end with the same ropes
and builders, and with the same digests, whatever digests are. -/
theorem Run.indistinguishable (h : Run digestOf steps answers session)
    (h' : Run digestOf steps answers' session') :
    List.Forall₂ AnswersAgree answers answers' ∧ session'.ropes = session.ropes ∧
      session'.builders = session.builders ∧
      ∀ rope, session.Keeps rope → ∀ node : Rope, node.Within rope →
        node.digest.outcome session'.store = node.digest.outcome session.store := by
  obtain ⟨t, halike, hanswers⟩ := h.alike
  obtain ⟨t', halike', hanswers'⟩ := h'.alike
  refine ⟨?_, halike'.ropes.trans halike.ropes.symm, halike'.builders.trans halike.builders.symm,
    fun rope hkeeps node hn => ?_⟩
  · exact AnswersAgree.forall₂_of_both hanswers hanswers'
  · have hkept := halike.keeps_iff.mp hkeeps
    have hlive := ((halike.live_of_keeps hkept).of_within hn).right
    have hlive' := ((halike'.live_of_keeps hkept).of_within hn).right
    have hdigests : t.right.store.digestOf = t'.right.store.digestOf := by
      rw [← t.digestOf_eq, ← t'.digestOf_eq, ← halike.left, ← halike'.left]
    rw [halike.right, halike'.right, Rope.outcome_digest hlive, Rope.outcome_digest hlive',
      hdigests]

/-- A join is walked in two chunks, or in one if its digest was asked for before. Nothing else can
be told apart. -/
theorem indistinguishable_join :
    ∃ (steps : List Step) (answers answers' : List (Except Failure Reply))
      (session session' : Session), Run Digest.ofContent steps answers session ∧
      Run Digest.ofContent steps answers' session' ∧
      List.Forall₂ AnswersAgree answers answers' ∧ session'.ropes = session.ropes ∧
      session'.builders = session.builders ∧
      (answers.map fun
        | .ok (.chunks found) => found.size
        | _ => 0) = [0, 0, 2] ∧
      (answers'.map fun
        | .ok (.chunks found) => found.size
        | _ => 0) = [0, 0, 1] := by
  let making : List Step := [.perform (.make (.text "a") (some "a")),
    .perform (.make (.concat "a" "a" .standard) (some "r"))]
  have hmaking : Run Digest.ofContent making _ _ := run_runAll making
  let joined : Rope := ((runAll Digest.ofContent making).2.ropes.get? "r").getD default
  have hget : (runAll Digest.ofContent making).2.ropes.get? "r" = some joined := by
    have hsome : ((runAll Digest.ofContent making).2.ropes.get? "r").isSome = true := by
      decide +kernel
    obtain ⟨found, hfound⟩ := Option.isSome_iff_exists.mp hsome
    simp only [joined, hfound, Option.getD_some]
  have hplain := hmaking.step (.perform (.ask (.chunks "r")))
  have hwarmed := (hmaking.warm .digest (.named hget) .refl).step (.perform (.ask (.chunks "r")))
  obtain ⟨hanswers, hropes, hbuilders, -⟩ := hplain.indistinguishable hwarmed
  refine ⟨_, _, _, _, _, hplain, hwarmed, hanswers, hropes, hbuilders, ?_, ?_⟩
  · decide +kernel
  · decide +kernel

end Session

end ByteRope
