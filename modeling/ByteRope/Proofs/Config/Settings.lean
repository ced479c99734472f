import ByteRope.Config
import ByteRope.Proofs.Text.Numeral

/-!
# Reading the settings

What the texts of the settings stand for, whichever of them are given: a setting has the value that
its text denotes, or its default if there is no text or an unacceptable one, whatever the texts of
the other settings are. Every unacceptable text is complained of once, in the order of the settings,
and nothing is left for a check of the settings that were read (`Config.read_settles`).
-/

namespace ByteRope

open Text (Denotes Framed)

/-! ## Strategies -/

namespace Strategy

variable {strategy other : Strategy} {word text : String}

/-- The text is a word for the strategy in letters of any case, with blanks around it. -/
def Spelled (text : String) (strategy : Strategy) : Prop :=
  ∃ core, Framed core text.toList ∧ ∃ word ∈ strategy.words, core.map Char.toLower = word.toList

theorem eq_of_mem_words (h : word ∈ strategy.words) (h' : word ∈ other.words) :
    strategy = other := by
  revert word
  cases strategy <;> cases other <;> decide +kernel

theorem isBlank_of_mem_words (h : word ∈ strategy.words) :
    ∀ c ∈ word.toList, Text.isBlank c = false := by
  have hwords : strategy.words.all (·.toList.all fun c => !Text.isBlank c) = true := by
    cases strategy <;> decide +kernel
  have hword := List.all_eq_true.mp hwords word h
  intro c hc
  simpa using List.all_eq_true.mp hword c hc

theorem mem_all (strategy : Strategy) : strategy ∈ all := by
  cases strategy <;> decide

theorem mem_words_of_parse? (h : parse? text = some strategy) :
    Text.caseless text ∈ strategy.words := by
  have hfound := List.find?_some h
  exact List.contains_iff_mem.mp hfound

/-- No two strategies share a word, so reading finds the one whose word the text is. -/
theorem parse?_of_mem_words (h : Text.caseless text ∈ strategy.words) :
    parse? text = some strategy := by
  cases hfound : parse? text with
  | some other => rw [eq_of_mem_words h (mem_words_of_parse? hfound)]
  | none =>
    have hnot := List.find?_eq_none.mp hfound strategy strategy.mem_all
    exact absurd (List.contains_iff_mem.mpr h) hnot

theorem parse?_eq_some_iff : parse? text = some strategy ↔ Spelled text strategy := by
  constructor
  · intro h
    refine ⟨_, Text.framed_trim text.toList, _, mem_words_of_parse? h, ?_⟩
    rw [Text.caseless, String.toList_ofList]
  · rintro ⟨core, hframed, word, hword, hcore⟩
    have hbare : ∀ c ∈ core, Text.isBlank c = false := by
      intro c hc
      cases hblank : Text.isBlank c with
      | false => rfl
      | true =>
        have hmem : c.toLower ∈ word.toList := hcore ▸ List.mem_map_of_mem hc
        rw [← hblank, ← isBlank_of_mem_words hword _ hmem, Text.toLower_of_isBlank hblank]
    apply parse?_of_mem_words
    rw [Text.caseless, Text.trim_of_framed hframed hbare, hcore, String.ofList_toList]
    exact hword

end Strategy

/-! ## One setting -/

namespace Setting

variable {α : Type} {setting : Setting} {config : Config} {field : Config → α}
  {read : String → Option α} {text? : Option String}

/-- What is wrong with an unacceptable text. -/
def complaint : Setting → Complaint
  | balanceFactor => .expectedPositive
  | smallConcatBytes => .expectedNumber
  | rebalance => .expectedStrategy

/-- The text stands for the value that the setting has. -/
def Stands (config : Config) (text : String) : Setting → Prop
  | balanceFactor => Denotes text config.balanceFactor ∧ 1 ≤ config.balanceFactor
  | smallConcatBytes => Denotes text config.smallConcatBytes
  | rebalance => Strategy.Spelled text config.rebalance

/-- The text stands for some value of the setting. -/
def Accepts (setting : Setting) (text : String) : Prop :=
  ∃ config : Config, setting.Stands config text

/-- The setting has one value in both. -/
def Same (config other : Config) : Setting → Prop
  | balanceFactor => config.balanceFactor = other.balanceFactor
  | smallConcatBytes => config.smallConcatBytes = other.smallConcatBytes
  | rebalance => config.rebalance = other.rebalance

/-- The setting is this field of the configuration, and its texts are read in this way. -/
structure Reads (setting : Setting) (field : Config → α) (read : String → Option α) : Prop where
  stands_iff : ∀ config text, setting.Stands config text ↔ read text = some (field config)
  same_iff : ∀ config other, setting.Same config other ↔ field config = field other

/-- What comes of the text of a setting, if there is one. -/
structure Settled (setting : Setting) (text? : Option String) (config : Config)
    (diagnostics : List Diagnostic) : Prop where
  given : ∀ text, text? = some text → setting.Accepts text → setting.Stands config text
  standard : (∀ text, text? = some text → ¬setting.Accepts text) → setting.Same config {}
  mem_iff : ∀ diagnostic, diagnostic ∈ diagnostics ↔ diagnostic.setting = setting ∧
    text? = some diagnostic.value ∧ ¬setting.Accepts diagnostic.value ∧
      diagnostic.complaint = setting.complaint
  ordered : (diagnostics.map Diagnostic.setting).Sublist [setting]

namespace Settled

variable {text : String}

theorem of_absent (hsame : setting.Same config {}) : setting.Settled none config [] where
  given := nofun
  standard _ := hsame
  mem_iff diagnostic := by simp
  ordered := List.nil_sublist _

theorem of_stands (hstands : setting.Stands config text) :
    setting.Settled (some text) config [] where
  given := by
    rintro _ ⟨⟩ -
    exact hstands
  standard hnone := absurd ⟨config, hstands⟩ (hnone text rfl)
  mem_iff diagnostic := by
    constructor
    · nofun
    · rintro ⟨-, ⟨⟩, hnot, -⟩
      exact absurd ⟨config, hstands⟩ hnot
  ordered := List.nil_sublist _

theorem of_unacceptable (hnot : ¬setting.Accepts text) (hsame : setting.Same config {}) :
    setting.Settled (some text) config [⟨setting, text, setting.complaint⟩] where
  given := by
    rintro _ ⟨⟩ haccepts
    exact absurd haccepts hnot
  standard _ := hsame
  mem_iff diagnostic := by
    obtain ⟨setting', value, complaint⟩ := diagnostic
    rw [List.mem_singleton, Diagnostic.mk.injEq]
    constructor
    · rintro ⟨rfl, rfl, rfl⟩
      exact ⟨rfl, rfl, hnot, rfl⟩
    · rintro ⟨hsetting, hvalue, -, hcomplaint⟩
      exact ⟨hsetting, (Option.some.inj hvalue).symm, hcomplaint⟩
  ordered := List.Sublist.refl _

end Settled

namespace Reads

theorem not_accepts (h : setting.Reads field read) {text : String} (hread : read text = none) :
    ¬setting.Accepts text := by
  rintro ⟨config, hstands⟩
  rw [h.stands_iff, hread] at hstands
  cases hstands

theorem settled (h : setting.Reads field read)
    (hconfig : field config =
      (Config.readField setting setting.complaint (field {}) read text?).1) :
    setting.Settled text? config
      (Config.readField setting setting.complaint (field {}) read text?).2 := by
  cases text? with
  | none => exact .of_absent ((h.same_iff config {}).mpr hconfig)
  | some text =>
    cases hread : read text with
    | some value =>
      simp only [Config.readField, hread] at hconfig ⊢
      exact .of_stands ((h.stands_iff config text).mpr (hconfig ▸ hread))
    | none =>
      simp only [Config.readField, hread] at hconfig ⊢
      exact .of_unacceptable (h.not_accepts hread) ((h.same_iff config {}).mpr hconfig)

end Reads

/-- The factor is read as the other number is, and has to be positive. -/
theorem reads_balanceFactor : balanceFactor.Reads Config.balanceFactor
    fun text => (Text.size? text).filter fun value => decide (1 ≤ value) where
  stands_iff config text := by
    rw [Option.filter_eq_some_iff, Text.size?_eq_some_iff, decide_eq_true_iff]
    rfl
  same_iff _ _ := Iff.rfl

theorem reads_smallConcatBytes :
    smallConcatBytes.Reads Config.smallConcatBytes Text.size? where
  stands_iff _ _ := Text.size?_eq_some_iff.symm
  same_iff _ _ := Iff.rfl

theorem reads_rebalance : rebalance.Reads Config.rebalance Strategy.parse? where
  stands_iff _ _ := Strategy.parse?_eq_some_iff.symm
  same_iff _ _ := Iff.rfl

end Setting

/-! ## All settings -/

namespace Config

variable {text? : Setting → Option String}

/-- What comes of the texts of the settings. -/
structure Settles (text? : Setting → Option String) (config : Config)
    (diagnostics : List Diagnostic) : Prop where
  given : ∀ setting text, text? setting = some text → setting.Accepts text →
    setting.Stands config text
  standard : ∀ setting, (∀ text, text? setting = some text → ¬setting.Accepts text) →
    setting.Same config {}
  independent : ∀ other setting, other setting = text? setting →
    setting.Same config (read other).1
  valid : config.problems = []
  mem_iff : ∀ diagnostic, diagnostic ∈ diagnostics ↔
    text? diagnostic.setting = some diagnostic.value ∧
      ¬diagnostic.setting.Accepts diagnostic.value ∧
      diagnostic.complaint = diagnostic.setting.complaint
  ordered : (diagnostics.map Diagnostic.setting).Sublist
    [.balanceFactor, .smallConcatBytes, .rebalance]

/-- Each setting is settled by its own text, and then the settings are checked. -/
theorem exists_settled (text? : Setting → Option String) :
    ∃ factor small strategy : List Diagnostic,
      Setting.balanceFactor.Settled (text? .balanceFactor) (read text?).1 factor ∧
      Setting.smallConcatBytes.Settled (text? .smallConcatBytes) (read text?).1 small ∧
      Setting.rebalance.Settled (text? .rebalance) (read text?).1 strategy ∧
      (read text?).2 = factor ++ small ++ strategy ++ (read text?).1.problems := by
  unfold read
  dsimp only
  exact ⟨_, _, _, Setting.reads_balanceFactor.settled rfl,
    Setting.reads_smallConcatBytes.settled rfl, Setting.reads_rebalance.settled rfl, rfl⟩

theorem problems_of_settled {config : Config} {diagnostics : List Diagnostic}
    {factor? : Option String}
    (h : Setting.balanceFactor.Settled factor? config diagnostics) : config.problems = [] := by
  have hpos : config.balanceFactor ≠ 0 := by
    by_cases hgiven : ∃ text, factor? = some text ∧ Setting.balanceFactor.Accepts text
    · obtain ⟨text, htext, haccepts⟩ := hgiven
      exact Nat.one_le_iff_ne_zero.mp (h.given text htext haccepts).2
    · have hsame := h.standard fun text htext haccepts => hgiven ⟨text, htext, haccepts⟩
      rw [Setting.Same] at hsame
      rw [hsame]
      decide
  exact if_neg hpos

/-- Whichever texts are given, each setting gets the value of its text or keeps its default, and
what is unacceptable is complained of once, in the order of the settings. -/
theorem read_settles (text? : Setting → Option String) :
    Settles text? (read text?).1 (read text?).2 := by
  obtain ⟨factor, small, strategy, hfactor, hsmall, hstrategy, hread⟩ := exists_settled text?
  have hvalid := problems_of_settled hfactor
  rw [hvalid, List.append_nil] at hread
  rw [hread]
  constructor
  case given =>
    intro setting
    cases setting
    exacts [hfactor.given, hsmall.given, hstrategy.given]
  case standard =>
    intro setting
    cases setting
    exacts [hfactor.standard, hsmall.standard, hstrategy.standard]
  case independent =>
    intro other setting hother
    cases setting <;> simp only [Setting.Same, read, hother]
  case valid => exact hvalid
  case mem_iff =>
    rintro ⟨setting, value, complaint⟩
    rw [List.mem_append, List.mem_append, hfactor.mem_iff, hsmall.mem_iff, hstrategy.mem_iff]
    cases setting <;> simp
  case ordered =>
    rw [List.map_append, List.map_append]
    exact (hfactor.ordered.append hsmall.ordered).append hstrategy.ordered

example :
    read (fun
      | .balanceFactor => some " 0"
      | .smallConcatBytes => some " +064 "
      | .rebalance => some "FLAT") =
      (⟨2, 64, .flatten⟩, [⟨.balanceFactor, " 0", .expectedPositive⟩]) := by
  decide +kernel

end Config

end ByteRope
