import Mathlib.Logic.Function.Basic
import ByteRope.Proofs.Session.Reachable

/-!
# Ledgers

A ledger notes down for the builder of each name the octets that commands push into it
(`Ledger.after`). Along every run the builders hold what the ledger says (`Ledger.Accounts`): so the
number of octets pushed is always the one that a builder tells, and what it builds is the octets
that were pushed, in their order (`Session.Traced.renders`).
-/

namespace ByteRope

open SessionM

variable {α β : Type}

/-! ## Names that are forgotten -/

/-- Every name of the first registers has the same value in the second. -/
def Registers.Among (registers registers' : Registers α) : Prop :=
  ∀ name value, registers.get? name = some value → registers'.get? name = some value

theorem Registers.Among.refl (registers : Registers α) : registers.Among registers := fun _ _ h => h

theorem Registers.Among.trans {registers registers' registers'' : Registers α}
    (h : registers.Among registers') (h' : registers'.Among registers'') :
    registers.Among registers'' :=
  fun name value hget => h' name value (h name value hget)

theorem Registers.among_erase (registers : Registers α) (name : String) :
    (registers.erase name).Among registers := fun _ _ => get?_of_get?_erase

namespace SessionM

/-- The session in which the computation ends. -/
def after (m : SessionM α) (session : Session) : Session :=
  match m session with
  | .ok _ session' | .error _ session' => session'

/-- The computation gives no name a builder, but it can forget some. -/
def Forgets (m : SessionM α) : Prop :=
  ∀ session, (m.after session).builders.Among session.builders

namespace Forgets

variable {m : SessionM α} {f : α → SessionM β}

theorem pure (a : α) : Forgets (pure a) := fun _ => .refl _

theorem throw (failure : Failure) : Forgets (throw failure : SessionM α) := fun _ => .refl _

theorem bind (hm : Forgets m) (hf : ∀ a, Forgets (f a)) : Forgets (m >>= f) := by
  intro session
  have hm := hm session
  unfold after at hm ⊢
  change Registers.Among (match EStateM.bind m f session with
    | .ok _ session' | .error _ session' => session').builders session.builders
  unfold EStateM.bind
  cases hrun : m session with
  | error => simpa only [hrun] using hm
  | ok a session' =>
    simp only [hrun] at hm ⊢
    exact (hf a session').trans hm

theorem get {f : Session → SessionM β} (h : ∀ session, Forgets (f session)) :
    Forgets (get >>= f) := fun session => h session session

theorem onStore (computation : RopeM α) : Forgets (onStore computation) := by
  rintro ⟨store, ropes, builders⟩
  unfold after SessionM.onStore
  cases hrun : computation store <;> simp only [hrun] <;> exact .refl _

theorem careful (computation : RopeM (Except Refusal α)) : Forgets (careful computation) := by
  refine (onStore computation).bind fun result => ?_
  cases result with
  | ok value => exact pure value
  | error refusal => exact throw _

theorem rope (name : String) : Forgets (rope name) := by
  refine get fun session => ?_
  split
  · exact pure _
  · exact throw _

theorem builder (name : String) : Forgets (builder name) := by
  refine get fun session => ?_
  split
  · exact pure _
  · exact throw _

theorem keepRope (name : String) (rope : Rope) : Forgets (keepRope name rope) := fun _ => .refl _

theorem forgetBuilder (name : String) : Forgets (forgetBuilder name) :=
  fun session => session.builders.among_erase name

theorem takeBuilder (name : String) : Forgets (takeBuilder name) :=
  (builder name).bind fun found => (forgetBuilder name).bind fun _ => pure found

theorem builderReply (builder : Builder) : Forgets (builderReply builder) :=
  (onStore _).bind fun _ => pure _

theorem foldlM {step : β → α → SessionM β} (hstep : ∀ b a, Forgets (step b a)) (as : List α)
    (b : β) : Forgets (as.foldlM step b) := by
  induction as generalizing b with
  | nil => exact pure b
  | cons a as ih => exact (hstep b a).bind ih

end Forgets

end SessionM

open SessionM (Forgets)

theorem Recipe.forgets_perform (recipe : Recipe) : Forgets recipe.perform := by
  cases recipe with
  | bytes | text | octets | empty | asciiOnlyLeaf | validLeaf | invalidLeaf | taggedLeaf =>
    exact .onStore _
  | copy name => exact .rope name
  | concat left right | taggedJoin left right | chain left right =>
    exact (Forgets.rope left).bind fun _ => (Forgets.rope right).bind fun _ => .onStore _
  | slice name | taggedView name | toSevenBit name | toBinary name | resolve name
  | rebalance name => exact (Forgets.rope name).bind fun _ => .onStore _
  | slice? name | toSevenBit? name | toBinary? name =>
    exact (Forgets.rope name).bind fun _ => .careful _
  | build name => exact (Forgets.takeBuilder name).bind fun _ => .onStore _

theorem Query.forgets_perform (query : Query) : Forgets query.perform := by
  cases query with
  | rope name => exact (Forgets.rope name).bind fun _ => .pure _
  | flatten name | byteAt name | byte? name | allBytes name | chunks name | lossyText name =>
    exact (Forgets.rope name).bind fun _ => (Forgets.onStore _).bind fun _ => .pure _
  | copyRange name =>
    exact (Forgets.rope name).bind fun _ => (Forgets.careful _).bind fun _ => .pure _
  | equal left right =>
    exact (Forgets.rope left).bind fun _ => (Forgets.rope right).bind fun _ =>
      (Forgets.onStore _).bind fun _ => .pure _
  | sameDigest left right =>
    exact (Forgets.rope left).bind fun _ => (Forgets.rope right).bind fun _ =>
      (Forgets.onStore _).bind fun _ => (Forgets.onStore _).bind fun _ => .pure _
  | sameNode left right =>
    exact (Forgets.rope left).bind fun _ => (Forgets.rope right).bind fun _ => .pure _
  | countDistinct names =>
    refine (Forgets.foldlM (fun ropes name => ?_) names _).bind fun _ => .pure _
    exact (Forgets.rope name).bind fun _ => .onStore _
  | materialized => exact .get fun _ => .pure _
  | builder name => exact (Forgets.builder name).bind fun _ => .builderReply _

/-! ## Changes -/

variable {session session' : Session} {name : String} {builder builder' : Builder}
  {change : Builder → RopeM Builder}

namespace SessionM

theorem run_takeBuilder (name : String) (session : Session) :
    takeBuilder name session = match session.builders.get? name with
      | some builder => .ok builder { session with builders := session.builders.erase name }
      | none => .error (.unknownBuilder name) session := by
  unfold takeBuilder
  rw [run_bind, run_builder]
  cases session.builders.get? name <;> rfl

theorem run_onStore (computation : RopeM α) (session : Session) :
    onStore computation session = match computation session.store with
      | .ok a store => .ok a { session with store }
      | .error fault store => .error (.fault fault) { session with store } := rfl

theorem run_builderReply (builder : Builder) (session : Session) :
    builderReply builder session = match builder.byteLen with
      | .ok byteLen => .ok (.builder byteLen builder.depth) session
      | .error fault => .error (.fault fault) session := by
  unfold builderReply
  rw [run_bind, run_onStore]
  cases builder.byteLen <;> rfl

/-- How the change of a builder ends. The changed builder is kept, or the name holds none if the
change fails. -/
inductive Changed (name : String) (change : Builder → RopeM Builder) (session : Session) :
    EStateM.Result Failure Session Reply → Prop
  | failed {failure : Failure} {session' : Session} : session'.builders.Among session.builders →
    Changed name change session (.error failure session')
  | kept {builder builder' : Builder} {store : Store} {reply : Reply} :
    session.builders.get? name = some builder → change builder session.store = .ok builder' store →
    Changed name change session
      (.ok reply ⟨store, session.ropes, (session.builders.erase name).set name builder'⟩)

theorem changeBuilder_ends (name : String) (change : Builder → RopeM Builder)
    (session : Session) : Changed name change session (changeBuilder name change session) := by
  unfold changeBuilder
  rw [run_bind, run_takeBuilder]
  cases hget : session.builders.get? name with
  | none => exact .failed (.refl _)
  | some builder =>
    dsimp only
    rw [run_bind, run_onStore]
    cases hchange : change builder session.store with
    | error => exact .failed (session.builders.among_erase name)
    | ok builder' store =>
      dsimp only
      rw [run_bind, run_builderReply]
      cases builder'.byteLen with
      | error => exact .failed (session.builders.among_erase name)
      | ok => exact .kept hget hchange

end SessionM

/-! ## Ledgers -/

/-- For the builder of each name, the octets that were pushed into it. -/
abbrev Ledger := String → List UInt8

/-- Notes down octets that are pushed again and again. -/
def Ledger.push (ledger : Ledger) (name : String) (octets : List UInt8) (count : Nat) : Ledger :=
  Function.update ledger name (ledger name ++ (List.replicate count octets).flatten)

/-- What a command notes down if it succeeds. -/
def Command.note (ropes : Registers Rope) (ledger : Ledger) : Command → Ledger
  | newBuilder name _ _ => Function.update ledger name []
  | pushRope name piece count =>
    match ropes.get? piece with
    | some rope => ledger.push name rope.content count
    | none => ledger
  | pushBytes name bytes count => ledger.push name bytes.toList count
  | copyBuilder name target => Function.update ledger target (ledger name)
  | make _ _ | ask _ | drop _ => ledger

/-- The ledger after a command. One that fails leaves no note. -/
def Ledger.after (ledger : Ledger) (session : Session) (command : Command) : Ledger :=
  match command.perform session with
  | .ok _ _ => command.note session.ropes ledger
  | .error _ _ => ledger

/-- The sessions to which commands lead, beside the ledgers that the commands have kept. -/
inductive Session.Traced : Session → Ledger → Prop
  | start (digestOf : Encoding → Bytes → UInt64) : Traced (.start digestOf) fun _ => []
  | perform {session : Session} {ledger : Ledger} {command : Command} : Traced session ledger →
    Traced (session.perform command).2.2 (ledger.after session command)
  | reveal {session : Session} {ledger : Ledger} {name target : String} {rope child : Rope} :
    Traced session ledger → session.ropes.get? name = some rope → child ∈ rope.children →
    Traced { session with ropes := session.ropes.set target child } ledger

/-- The builder of every name holds the octets that the ledger has for it. -/
def Ledger.Accounts (ledger : Ledger) (builders : Registers Builder) : Prop :=
  ∀ name builder, builders.get? name = some builder → builder.Contains (ledger name)

variable {ledger : Ledger} {builders builders' : Registers Builder} {octets : List UInt8}
  {c : Census}

namespace Ledger.Accounts

theorem among (h : ledger.Accounts builders) (hamong : builders'.Among builders) :
    ledger.Accounts builders' :=
  fun name builder hget => h name builder (hamong name builder hget)

theorem set (h : ledger.Accounts builders) (hbuilder : builder.Contains octets) (name : String) :
    Ledger.Accounts (Function.update ledger name octets) (builders.set name builder) := by
  intro other found hget
  by_cases heq : other = name
  · subst heq
    rw [Registers.get?_set_self] at hget
    cases hget
    rwa [Function.update_self]
  · rw [Registers.get?_set_of_ne _ heq] at hget
    rw [Function.update_of_ne heq]
    exact h other found hget

end Ledger.Accounts

/-! ## Steps -/

/-- The ledger accounts for the builders after a computation: with the note if it succeeds, and as
it was if it fails. -/
def Ledger.Follows (ledger note : Ledger) : EStateM.Result Failure Session Reply → Prop
  | .ok _ session' => note.Accounts session'.builders
  | .error _ session' => ledger.Accounts session'.builders

namespace Ledger.Accounts

/-- A computation that can only forget builders leaves nothing to note down. -/
theorem follows_of_forgets (h : ledger.Accounts session.builders) {m : SessionM Reply}
    (hm : Forgets m) : ledger.Follows ledger (m session) := by
  have hamong := hm session
  unfold SessionM.after at hamong
  cases hrun : m session with
  | ok | error =>
    rw [hrun] at hamong
    exact h.among hamong

/-- A builder that takes in octets. -/
theorem follows_of_gains (h : ledger.Accounts session.builders)
    (hgains : ∀ {builder builder' : Builder} {store : Store},
      session.builders.get? name = some builder →
      change builder session.store = .ok builder' store → builder.Gains octets builder') :
    ledger.Follows (Function.update ledger name (ledger name ++ octets))
      (changeBuilder name change session) := by
  have hends := changeBuilder_ends name change session
  generalize changeBuilder name change session = result at hends ⊢
  cases hends with
  | failed hamong => exact h.among hamong
  | kept hget hchange =>
    exact (h.among (session.builders.among_erase name)).set
      (hgains hget hchange _ (h name _ hget)) name

end Ledger.Accounts

theorem Command.follows (hholds : session.Holds (fun _ => True) c)
    (h : ledger.Accounts session.builders) (command : Command) :
    ledger.Follows (command.note session.ropes ledger) (command.perform session) := by
  cases command with
  | make recipe target? =>
    refine h.follows_of_forgets (recipe.forgets_perform.bind fun rope => ?_)
    cases target? with
    | none => exact .pure _
    | some target => exact (Forgets.keepRope target rope).bind fun _ => .pure _
  | ask query => exact h.follows_of_forgets query.forgets_perform
  | drop name => exact h
  | newBuilder name encoding config => exact h.set (Builder.contains_new encoding config) name
  | pushRope name piece count =>
    change ledger.Follows _ ((SessionM.rope piece >>= fun piece =>
      changeBuilder name fun builder => builder.pushTimes piece count) session)
    rw [run_bind, run_rope]
    cases hrope : session.ropes.get? piece with
    | none => exact h
    | some rope =>
      simp only [note, hrope]
      refine h.follows_of_gains fun hget hrun => ?_
      obtain ⟨hlive, hmade⟩ := hholds.ropes hrope
      rw [hholds.store] at hrun
      obtain ⟨_, -, -, -, hgains⟩ :=
        ((hholds.builders hget).toSound.pushTimes hlive hmade count).of_run hrun
      exact hgains
  | pushBytes name bytes count =>
    refine h.follows_of_gains fun hget hrun => ?_
    rw [hholds.store] at hrun
    obtain ⟨_, -, -, -, hgains⟩ :=
      ((hholds.builders hget).toSound.pushBytesTimes count).of_run hrun
    exact hgains
  | copyBuilder name target =>
    change ledger.Follows _ ((SessionM.builder name >>= fun builder =>
      keepBuilder target builder >>= fun _ => builderReply builder) session)
    rw [run_bind, run_builder]
    cases hget : session.builders.get? name with
    | none => exact h
    | some builder =>
      dsimp only
      rw [run_bind]
      change ledger.Follows _ (builderReply builder _)
      rw [run_builderReply, Builder.byteLen_eq (hholds.builders hget).len]
      exact h.set (h name builder hget) target

/-! ## Runs -/

theorem Session.Traced.reachable (h : session.Traced ledger) :
    session.Reachable fun _ => True := by
  induction h with
  | start digestOf => exact .start digestOf
  | perform _ ih => exact ih.perform fun _ _ => trivial
  | reveal _ hget hchild ih => exact ih.reveal hget hchild

/-- Every reachable session has a ledger. -/
theorem Session.Reachable.exists_traced {may : Deed → Prop} (h : session.Reachable may) :
    ∃ ledger, session.Traced ledger := by
  induction h with
  | start digestOf => exact ⟨_, .start digestOf⟩
  | perform _ _ ih =>
    obtain ⟨ledger, htraced⟩ := ih
    exact ⟨_, htraced.perform⟩
  | reveal _ hget hchild ih =>
    obtain ⟨ledger, htraced⟩ := ih
    exact ⟨_, htraced.reveal hget hchild⟩

/-- The ledger accounts for the builders along every run. -/
theorem Session.Traced.accounts (h : session.Traced ledger) :
    ledger.Accounts session.builders := by
  induction h with
  | start => exact nofun
  | @perform session ledger command htraced ih =>
    obtain ⟨c, hholds⟩ := htraced.reachable.holds
    have hfollows := command.follows hholds ih
    unfold Session.perform Ledger.after
    cases hrun : command.perform session with
    | ok | error =>
      rw [hrun] at hfollows
      exact hfollows
  | reveal _ _ _ ih => exact ih

/-- The builder tells the number of these octets, and builds them. -/
structure Builder.Renders (octets : List UInt8) (builder : Builder) (store : Store) : Prop where
  byteLen_eq : builder.byteLen = .ok octets.length
  isEmpty_eq : builder.isEmpty = .ok (decide (octets.length = 0))
  content_eq : ∀ rope store', builder.build store = .ok rope store' → rope.content = octets

/-- A builder renders the octets that were pushed into it, each time and in their order. -/
theorem Session.Traced.renders (h : session.Traced ledger)
    (hget : session.builders.get? name = some builder) :
    builder.Renders (ledger name) session.store := by
  obtain ⟨c, hholds⟩ := h.reachable.holds
  have hkept := hholds.builders hget
  have hcontains := h.accounts name builder hget
  have hlen : builder.byteLen = .ok (ledger name).length :=
    hcontains.len_eq ▸ Builder.byteLen_eq hkept.len
  refine ⟨hlen, ?_, fun rope store' hbuilt => ?_⟩
  · unfold Builder.isEmpty
    rw [hlen]
    rfl
  · rw [hholds.store] at hbuilt
    obtain ⟨-, -, -, -, -, hrope, -⟩ :=
      (Builder.wf_build Rope.Made.family_building hkept.ready
        fun _ hscanned => .scanned (.inl trivial) hscanned).of_run hbuilt
    exact hcontains.built (fun _ h => h.wf) hrope

/-- A builder that merges small pieces, into which two octets were pushed three times. -/
theorem renders_thrice :
    ∃ (session : Session) (ledger : Ledger) (builder : Builder), session.Traced ledger ∧
      session.builders.get? "b" = some builder ∧ ledger "b" = [99, 0, 99, 0, 99, 0] ∧
      builder.Renders (ledger "b") session.store ∧
      (builder.build.outcome session.store).map Rope.content = .ok [99, 0, 99, 0, 99, 0] := by
  let start : Session :=
    (Session.empty.perform (.newBuilder "b" .utf16le { smallConcatBytes := 4 })).2.2
  let session : Session := (start.perform (.pushBytes "b" #[99, 0] 3)).2.2
  have hstart : start.Traced _ := .perform (.start _)
  have h : session.Traced _ := hstart.perform
  have hends : ((session.builders.get? "b").map fun builder =>
      (builder.build.outcome session.store).map Rope.content) =
        some (.ok [99, 0, 99, 0, 99, 0]) := by decide +kernel
  obtain ⟨builder, hget, hbuilt⟩ := Option.map_eq_some_iff.mp hends
  exact ⟨session, _, builder, h, hget, by decide +kernel, h.renders hget, hbuilt⟩

end ByteRope
