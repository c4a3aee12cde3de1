import Holchain.Bin.Shell

/-!
# Laws.Getopts — which arguments spell which options

`Spells` says how options are written: flags side by side in one word, and in a word's last option
an argument, in the same word or in the next one. The loop over `getopts` reads back what is spelled
(`getopts_spells`), and where it reports nothing unknown, what it has read is spelled: the operands
begin behind the spelling or behind a `--` that ends it (`getopts_iff`).
-/

namespace Holchain.Bin

open Holper (Bytes lit)

/-! ## Words -/

/-- An option without an argument. -/
structure Flag (optstring : Bytes) (c : UInt8) : Prop where
  listed : c ∈ optstring
  colon : c ≠ 58
  known : c ≠ 63
  bare : ¬ [c, 58] <:+: optstring

/-- An option with an argument. -/
structure Takes (optstring : Bytes) (c : UInt8) : Prop where
  colon : c ≠ 58
  known : c ≠ 63
  takes : [c, 58] <:+: optstring

theorem Takes.listed {optstring : Bytes} {c : UInt8} (h : Takes optstring c) : c ∈ optstring :=
  h.takes.subset List.mem_cons_self

/-- Options in one word, and the last one where its argument is the next word. -/
inductive SpellsWord (optstring : Bytes) : Bytes → List Opt → Option UInt8 → Prop
  | nil : SpellsWord optstring [] [] none
  | flag {c cs opts last} : Flag optstring c → SpellsWord optstring cs opts last →
      SpellsWord optstring (c :: cs) ({ opt := c } :: opts) last
  | attached {c cs} : Takes optstring c → cs ≠ [] →
      SpellsWord optstring (c :: cs) [{ opt := c, optarg := cs }] none
  | separate {c} : Takes optstring c → SpellsWord optstring [c] [] (some c)

theorem getoptsWord_unknown {optstring : Bytes} {c : UInt8} (h : c = 58 ∨ c ∉ optstring)
    (cs : Bytes) :
    getoptsWord optstring (c :: cs)
      = (.unknown :: (getoptsWord optstring cs).1, (getoptsWord optstring cs).2) :=
  if_pos h

theorem getoptsWord_flag {optstring : Bytes} {c : UInt8} (hlisted : c ∈ optstring)
    (hcolon : c ≠ 58) (hbare : ¬ [c, 58] <:+: optstring) (cs : Bytes) :
    getoptsWord optstring (c :: cs)
      = ({ opt := c } :: (getoptsWord optstring cs).1, (getoptsWord optstring cs).2) := by
  refine (if_neg ?_).trans (if_neg hbare)
  rintro (heq | hnot)
  · exact hcolon heq
  · exact hnot hlisted

theorem getoptsWord_takes {optstring : Bytes} {c : UInt8} (hcolon : c ≠ 58)
    (htakes : [c, 58] <:+: optstring) (cs : Bytes) :
    getoptsWord optstring (c :: cs)
      = if cs = [] then ([], some c) else ([{ opt := c, optarg := cs }], none) := by
  refine (if_neg ?_).trans (if_pos htakes)
  rintro (heq | hnot)
  · exact hcolon heq
  · exact hnot (htakes.subset List.mem_cons_self)

theorem SpellsWord.getoptsWord_eq {optstring word : Bytes} {opts : List Opt} {last : Option UInt8}
    (h : SpellsWord optstring word opts last) : getoptsWord optstring word = (opts, last) := by
  induction h with
  | nil => rfl
  | flag hflag _ ih => rw [getoptsWord_flag hflag.listed hflag.colon hflag.bare, ih]
  | attached htakes hcs => rw [getoptsWord_takes htakes.colon htakes.takes, if_neg hcs]
  | separate htakes => rw [getoptsWord_takes htakes.colon htakes.takes, if_pos rfl]

/-- The known options of a word are spelled by it. -/
theorem spellsWord_of_known (optstring word : Bytes)
    (hopts : ∀ o ∈ (getoptsWord optstring word).1, o.opt ≠ 63)
    (hlast : ∀ c ∈ (getoptsWord optstring word).2, c ≠ 63) :
    SpellsWord optstring word (getoptsWord optstring word).1 (getoptsWord optstring word).2 := by
  induction word with
  | nil => exact .nil
  | cons c cs ih =>
    by_cases hunknown : c = 58 ∨ c ∉ optstring
    · rw [getoptsWord_unknown hunknown] at hopts
      exact absurd rfl (hopts .unknown List.mem_cons_self)
    · obtain ⟨hcolon, hlisted⟩ := not_or.mp hunknown
      replace hlisted := not_not.mp hlisted
      by_cases htakes : [c, 58] <:+: optstring
      · rw [getoptsWord_takes hcolon htakes] at hopts hlast ⊢
        by_cases hcs : cs = []
        · rw [if_pos hcs] at hlast ⊢
          subst hcs
          exact .separate ⟨hcolon, hlast c rfl, htakes⟩
        · rw [if_neg hcs] at hopts ⊢
          exact .attached ⟨hcolon, hopts _ List.mem_cons_self, htakes⟩ hcs
      · rw [getoptsWord_flag hlisted hcolon htakes] at hopts hlast ⊢
        exact .flag ⟨hlisted, hcolon, hopts _ List.mem_cons_self, htakes⟩
          (ih (fun o ho => hopts o (List.mem_cons_of_mem _ ho)) hlast)

/-! ## Arguments -/

/-- Arguments that are options. -/
inductive Spells (optstring : Bytes) : List Bytes → List Opt → Prop
  | nil : Spells optstring [] []
  | word {word args opts opts'} : word ≠ [] → word ≠ [45] → SpellsWord optstring word opts none →
      Spells optstring args opts' → Spells optstring ((45 :: word) :: args) (opts ++ opts')
  | separate {word c optarg args opts opts'} : word ≠ [45] →
      SpellsWord optstring word opts (some c) → Spells optstring args opts' →
      Spells optstring ((45 :: word) :: optarg :: args) (opts ++ { opt := c, optarg } :: opts')

/-- No option is the first of these. -/
def Operands : List Bytes → Prop
  | (45 :: _ :: _) :: _ => False
  | _ => True

theorem getopts_operands (optstring : Bytes) {args : List Bytes} (h : Operands args) :
    getopts optstring args = ([], args) := by
  unfold getopts
  split
  · exact absurd h id
  · rfl

theorem getopts_dashes (optstring : Bytes) (args : List Bytes) :
    getopts optstring (lit "--" :: args) = ([], args) := by
  unfold getopts
  exact if_pos ⟨rfl, rfl⟩

theorem not_dashes {c : UInt8} {cs : Bytes} (h : c :: cs ≠ [45]) : ¬ (c = 45 ∧ cs = []) := by
  rintro ⟨rfl, rfl⟩
  exact h rfl

theorem getopts_word {optstring word : Bytes} (hne : word ≠ []) (hdash : word ≠ [45])
    {opts : List Opt} (hword : getoptsWord optstring word = (opts, none)) (args : List Bytes) :
    getopts optstring ((45 :: word) :: args)
      = (opts ++ (getopts optstring args).1, (getopts optstring args).2) := by
  obtain ⟨c, cs, rfl⟩ := List.exists_cons_of_ne_nil hne
  rw [getopts.eq_def]
  refine (if_neg (not_dashes hdash)).trans ?_
  rw [hword]

theorem getopts_separate {optstring word : Bytes} (hne : word ≠ []) (hdash : word ≠ [45])
    {opts : List Opt} {c : UInt8} (hword : getoptsWord optstring word = (opts, some c))
    (optarg : Bytes) (args : List Bytes) :
    getopts optstring ((45 :: word) :: optarg :: args)
      = (opts ++ { opt := c, optarg } :: (getopts optstring args).1,
        (getopts optstring args).2) := by
  obtain ⟨d, cs, rfl⟩ := List.exists_cons_of_ne_nil hne
  rw [getopts.eq_def]
  refine (if_neg (not_dashes hdash)).trans ?_
  rw [hword]

theorem SpellsWord.ne_nil {optstring word : Bytes} {opts : List Opt} {c : UInt8}
    (h : SpellsWord optstring word opts (some c)) : word ≠ [] := by
  cases h with
  | flag => exact List.cons_ne_nil _ _
  | separate => exact List.cons_ne_nil _ _

/-- **The loop reads what is spelled**, whatever stands behind it. -/
theorem getopts_spells {optstring : Bytes} {args : List Bytes} {opts : List Opt}
    (h : Spells optstring args opts) (rest : List Bytes) :
    getopts optstring (args ++ rest)
      = (opts ++ (getopts optstring rest).1, (getopts optstring rest).2) := by
  induction h with
  | nil => rfl
  | word hne hdash hword _ ih =>
    rw [List.cons_append, getopts_word hne hdash hword.getoptsWord_eq, ih, List.append_assoc]
  | separate hdash hword _ ih =>
    rw [List.cons_append, List.cons_append,
      getopts_separate hword.ne_nil hdash hword.getoptsWord_eq, ih, List.append_assoc,
      List.cons_append]

/-- What is spelled is listed, and none of it is reported as unknown. -/
theorem SpellsWord.listed {optstring word : Bytes} {opts : List Opt} {last : Option UInt8}
    (h : SpellsWord optstring word opts last) :
    (∀ o ∈ opts, o.opt ∈ optstring ∧ o.opt ≠ 58 ∧ o.opt ≠ 63)
      ∧ ∀ c ∈ last, c ∈ optstring ∧ c ≠ 58 ∧ c ≠ 63 := by
  induction h with
  | nil => exact ⟨nofun, nofun⟩
  | flag hflag _ ih =>
    exact ⟨List.forall_mem_cons.mpr ⟨⟨hflag.listed, hflag.colon, hflag.known⟩, ih.1⟩, ih.2⟩
  | attached htakes =>
    exact ⟨List.forall_mem_singleton.mpr ⟨htakes.listed, htakes.colon, htakes.known⟩, nofun⟩
  | separate htakes =>
    refine ⟨nofun, fun c hc => ?_⟩
    cases hc
    exact ⟨htakes.listed, htakes.colon, htakes.known⟩

theorem Spells.listed {optstring : Bytes} {args : List Bytes} {opts : List Opt}
    (h : Spells optstring args opts) : ∀ o ∈ opts, o.opt ∈ optstring ∧ o.opt ≠ 58 ∧ o.opt ≠ 63 := by
  induction h with
  | nil => exact nofun
  | word _ _ hword _ ih => exact List.forall_mem_append.mpr ⟨hword.listed.1, ih⟩
  | separate _ hword _ ih =>
    exact List.forall_mem_append.mpr
      ⟨hword.listed.1, List.forall_mem_cons.mpr ⟨hword.listed.2 _ rfl, ih⟩⟩

/-- The operands begin behind the spelling, or behind the `--` that ends it. -/
def Divides (args spelled rest : List Bytes) : Prop :=
  args = spelled ++ lit "--" :: rest ∨ args = spelled ++ rest ∧ Operands rest

theorem Divides.append {args spelled rest : List Bytes} (h : Divides args spelled rest)
    (before : List Bytes) : Divides (before ++ args) (before ++ spelled) rest := by
  rcases h with rfl | ⟨rfl, hrest⟩
  · exact .inl (List.append_assoc _ _ _).symm
  · exact .inr ⟨(List.append_assoc _ _ _).symm, hrest⟩

theorem Divides.suffix {args spelled rest : List Bytes} (h : Divides args spelled rest) :
    rest <:+ args := by
  rcases h with rfl | ⟨rfl, -⟩
  · exact ⟨spelled ++ [lit "--"], List.append_assoc _ _ _⟩
  · exact List.suffix_append _ _

/-- What has been read without anything unknown is spelled. -/
theorem exists_spells (optstring : Bytes) (args : List Bytes)
    (h : ∀ o ∈ (getopts optstring args).1, o.opt ≠ 63) :
    ∃ spelled, Spells optstring spelled (getopts optstring args).1
      ∧ Divides args spelled (getopts optstring args).2 := by
  fun_induction getopts optstring args with
  | case1 c cs args hdashes =>
    obtain ⟨rfl, rfl⟩ := hdashes
    exact ⟨[], .nil, .inl rfl⟩
  | case2 c cs hdashes opts args hword opts' rest hrest ih =>
    rw [hrest] at ih
    obtain ⟨hopts, hopts'⟩ := List.forall_mem_append.mp h
    obtain ⟨spelled, hspells, hdivides⟩ := ih hopts'
    have hspelled := spellsWord_of_known optstring (c :: cs)
    rw [hword] at hspelled
    replace hspelled := hspelled hopts fun c hc => absurd hc (Option.not_mem_none c)
    refine ⟨(45 :: c :: cs) :: spelled, .word (List.cons_ne_nil _ _) ?_ hspelled hspells,
      hdivides.append [_]⟩
    rintro ⟨⟩
    exact hdashes ⟨rfl, rfl⟩
  | case3 c cs hdashes opts o hword =>
    exact absurd rfl (h .unknown (List.mem_append_right _ List.mem_cons_self))
  | case4 c cs hdashes opts o optarg args hword opts' rest hrest ih =>
    rw [hrest] at ih
    obtain ⟨hopts, hmore⟩ := List.forall_mem_append.mp h
    obtain ⟨ho, hopts'⟩ := List.forall_mem_cons.mp hmore
    obtain ⟨spelled, hspells, hdivides⟩ := ih hopts'
    have hspelled := spellsWord_of_known optstring (c :: cs)
    rw [hword] at hspelled
    refine ⟨(45 :: c :: cs) :: optarg :: spelled, .separate ?_ (hspelled hopts ?_) hspells,
      hdivides.append [_, _]⟩
    · rintro ⟨⟩
      exact hdashes ⟨rfl, rfl⟩
    · rintro _ ⟨⟩
      exact ho
  | case5 args hnone =>
    refine ⟨[], .nil, .inr ⟨rfl, ?_⟩⟩
    unfold Operands
    split
    · next hargs =>
      exact hnone _ _ _ hargs
    · trivial

/-- **What the loop accepts is what is spelled.** -/
theorem getopts_iff (optstring : Bytes) (args : List Bytes) (opts : List Opt) (rest : List Bytes) :
    (getopts optstring args = (opts, rest) ∧ ∀ o ∈ opts, o.opt ≠ 63)
      ↔ ∃ spelled, Spells optstring spelled opts ∧ Divides args spelled rest := by
  constructor
  · rintro ⟨hopts, hknown⟩
    have hspells := exists_spells optstring args
    rw [hopts] at hspells
    exact hspells hknown
  · rintro ⟨spelled, hspells, hdivides⟩
    refine ⟨?_, fun o ho => (hspells.listed o ho).2.2⟩
    rcases hdivides with rfl | ⟨rfl, hrest⟩
    · rw [getopts_spells hspells, getopts_dashes, List.append_nil]
    · rw [getopts_spells hspells, getopts_operands optstring hrest, List.append_nil]

end Holchain.Bin
