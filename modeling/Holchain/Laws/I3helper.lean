import Holchain.Bin.I3helper
import Holchain.Laws.Localdb

/-!
# Laws.I3helper — registers that keep what is copied to them

What the script is for needs no file: a register holds the last text that was copied to it, and the
prompt the last command (`Memory`). With the file of `localdb` in between the selections, the pasted
texts and the evaluated commands are the same (`registers_kept`). Newlines at the end of a text are
lost, a text of nothing else leaves the register alone, and what was never copied is `null`.
-/

namespace Holchain.Bin.I3helper

open Holper (Bytes lit)
open Localdb (Jq localdb Documented Entry Object Represents)

/-! ## Registers -/

/-- The registers and the prompt, with what is around them. -/
structure Memory where
  registers : Bytes → Option Bytes := fun _ => none
  prompted : Option Bytes := none
  primary : Bytes
  clipboard : Bytes
  pasted : List Bytes := []
  evaluated : List Bytes := []

namespace Memory

/-- A text is copied, but for the newlines at its end. -/
def keep (reg text : Bytes) (m : Memory) : Memory :=
  { m with
    registers :=
      if substitute text = [] then m.registers
      else Function.update m.registers reg (some (substitute text)) }

/-- What a register has. -/
def recalled (m : Memory) (reg : Bytes) : Bytes := (m.registers reg).getD (lit "null")

/-- What `Ctrl+c` leaves in the clipboard. -/
def copied (m : Memory) : Window → Bytes
  | .program (some selected) => selected
  | .program none | .terminal => m.clipboard

/-- An action. -/
def act (m : Memory) : Action → Memory
  | .select text => { m with primary := text }
  | .cut text => { m with clipboard := text }
  | .copy .terminal => { m with clipboard := m.primary }
  | .copy focus => { m with clipboard := m.copied focus, primary := m.copied focus }
  | .paste .terminal => { m with pasted := m.pasted ++ [m.primary] }
  | .paste _ => { m with pasted := m.pasted ++ [m.clipboard] }
  | .copytoregister reg .terminal => m.keep reg m.primary
  | .copytoregister reg focus => { m with clipboard := m.copied focus }.keep reg (m.copied focus)
  | .pastefromregister reg .terminal =>
    { m with primary := m.recalled reg, pasted := m.pasted ++ [m.recalled reg] }
  | .pastefromregister reg _ =>
    { m with clipboard := m.recalled reg, pasted := m.pasted ++ [m.recalled reg] }
  | .prompt prompted => if prompted = [] then m else { m with prompted := some prompted }
  | .execute => { m with evaluated := m.evaluated ++ [substitute (m.prompted.getD (lit "null"))] }

/-- Some actions. -/
def acts (m : Memory) (actions : List Action) : Memory := actions.foldl act m

end Memory

/-! ## Arguments -/

/-- A text of ASCII characters. -/
def Ascii (b : Bytes) : Prop := ∀ c ∈ b, c < 128

/-- An argument has no NUL. -/
def Argument (b : Bytes) : Prop := ∀ c ∈ b, 0 < c ∧ c < 128

instance (b : Bytes) : Decidable (Ascii b) := List.decidableBAll (fun c => c < 128) b

instance (b : Bytes) : Decidable (Argument b) := List.decidableBAll (fun c => 0 < c ∧ c < 128) b

variable {b reg reg' : Bytes}

theorem Argument.ascii (h : Argument b) : Ascii b := fun c hc => (h c hc).2

/-- The character of a byte. -/
theorem ofNat_toNat {c : UInt8} (h : c < 128) : (Char.ofNat c.toNat).toNat = c.toNat := by
  have hall : ∀ n < 128, (Char.ofNat n).toNat = n := by decide
  exact hall c.toNat h

theorem characters_ascii (h : Ascii b) : (characters b).Ascii := by
  intro c hc
  obtain ⟨byte, hbyte, rfl⟩ := List.mem_map.mp hc
  rw [ofNat_toNat (h byte hbyte)]
  exact h byte hbyte

theorem utf8_characters (h : Ascii b) : (characters b).utf8 = b := by
  rw [utf8_ascii (characters_ascii h), characters, List.map_map]
  have hbyte (c : UInt8) (hc : c ∈ b) : UInt8.ofNat (Char.ofNat c.toNat).toNat = c := by
    rw [ofNat_toNat (h c hc), UInt8.ofNat_toNat]
  calc b.map _ = b.map id := List.map_congr_left hbyte
    _ = b := List.map_id b

theorem characters_inj {b b' : Bytes} (h : Ascii b) (h' : Ascii b') (heq : characters b = characters b') :
    b = b' := by
  rw [← utf8_characters h, ← utf8_characters h', heq]

/-- A key or a value for `localdb`. -/
def entry (b : Bytes) (hne : b ≠ []) (h : Argument b) : Entry where
  text := characters b
  nonempty := fun hnil => hne (List.map_eq_nil_iff.mp hnil)
  ascii := characters_ascii h.ascii
  noNul := by
    intro hnul
    obtain ⟨c, hc, heq⟩ := List.mem_map.mp hnul
    have hzero : c.toNat = 0 := (ofNat_toNat (h c hc).2).symm.trans (congrArg Char.toNat heq)
    exact absurd (h c hc).1 (by simp [UInt8.lt_iff_toNat_lt, hzero])

theorem substitute_argument (h : Ascii b) : Argument (substitute b) := by
  intro c hc
  have hmem : c ∈ b.filter (· != 0) := (List.rdropWhile_prefix _ _).subset hc
  obtain ⟨hb, hne⟩ := List.mem_filter.mp hmem
  exact ⟨UInt8.pos_iff_ne_zero.mpr (bne_iff_ne.mp hne), h c hb⟩

theorem register_argument (h : Argument reg) : Argument (register reg) := by
  have hname : Argument (lit "clipboard.") := by decide
  exact List.forall_mem_append.mpr ⟨hname, h⟩

theorem register_ne_nil (reg : Bytes) : register reg ≠ [] :=
  fun hnil => absurd (List.append_eq_nil_iff.mp hnil).1 (by decide)

theorem register_ne_prompt (reg : Bytes) : register reg ≠ lit "prompt" := by
  intro heq
  have hhead : some (99 : UInt8) = some 112 := congrArg List.head? heq
  exact absurd hhead (by decide)

theorem register_inj (heq : register reg = register reg') : reg = reg' := List.append_cancel_left heq

/-! ## The file -/

/-- The window copies ASCII characters. -/
def Window.Ascii : Window → Prop
  | .program (some selected) => I3helper.Ascii selected
  | .program none | .terminal => True

/-- The arguments and texts of an action are ASCII characters. -/
def Action.Ascii : Action → Prop
  | .select text | .cut text => I3helper.Ascii text
  | .copy focus | .paste focus => focus.Ascii
  | .copytoregister reg focus | .pastefromregister reg focus => Argument reg ∧ focus.Ascii
  | .prompt prompted => Argument prompted
  | .execute => True

/-- The value of a key. -/
def valueOf (map : Text → Option Entry) (key : Bytes) : Option Bytes :=
  (map (characters key)).map fun value => value.text.utf8

/-- The file has the registers and the prompt. -/
def Stores (db : Bytes) (registers : Bytes → Option Bytes) (prompted : Option Bytes) : Prop :=
  ∃ o map, Represents db o map ∧ (∀ reg, Argument reg → valueOf map (register reg) = registers reg)
    ∧ valueOf map (lit "prompt") = prompted

variable {jq : Jq} {d : Desktop} {m : Memory} {key value : Bytes} {registers : Bytes → Option Bytes}
  {prompted : Option Bytes} {map : Text → Option Entry} {o : Object}

theorem ascii_valueOf (h : valueOf map key = some value) : I3helper.Ascii value := by
  obtain ⟨e, -, rfl⟩ := Option.map_eq_some_iff.mp h
  intro c hc
  rw [utf8_ascii e.ascii] at hc
  obtain ⟨char, hchar, rfl⟩ := List.mem_map.mp hc
  have hlt := e.ascii char hchar
  rw [UInt8.lt_iff_toNat_lt, UInt8.toNat_ofNat', Nat.mod_eq_of_lt (by omega)]
  exact hlt

/-- What is loaded is the value. -/
theorem load_eq (hjq : Documented jq) (h : Represents (d.dbfile.getD Localdb.created) o map)
    (hne : key ≠ []) (hkey : Argument key) : load jq key d =
      ({ d with dbfile := some (d.dbfile.getD Localdb.created) }, (valueOf map key).getD (lit "null")) := by
  have hget := h.get hjq (entry key hne hkey)
  have hrun : localdb jq d.dbfile (characters key) [] =
      (Localdb.Run.get (entry key hne hkey)).exec jq (d.dbfile.getD Localdb.created) := rfl
  have hprinted : Localdb.valuePrinted (map (characters key)) = (valueOf map key).getD (lit "null") := by
    cases hmap : map (characters key) with
    | none => simp [valueOf, hmap, Localdb.valuePrinted]
    | some e => simp [valueOf, hmap, Localdb.valuePrinted]
  rw [load, hrun, hget]
  exact congrArg _ hprinted

/-- What is saved is the value, if it is one. -/
theorem localdb_set (hjq : Documented jq) {dbfile : Option Bytes}
    (h : Represents (dbfile.getD Localdb.created) o map) (hne : key ≠ []) (hkey : Argument key)
    (hvalue : Argument value) (hsome : value ≠ []) :
    ∃ o', Represents (localdb jq dbfile (characters key) (characters value)).1 o'
      (Function.update map (characters key) (some (entry value hsome hvalue))) :=
  h.set hjq (entry key hne hkey) (entry value hsome hvalue)

theorem valueOf_update (hkey : Ascii key) {other : Bytes} (hother : Ascii other) (e : Entry) :
    valueOf (Function.update map (characters key) (some e)) other =
      if other = key then some e.text.utf8 else valueOf map other := by
  unfold valueOf
  by_cases heq : other = key
  · rw [if_pos heq, heq, Function.update_self]
    rfl
  · rw [if_neg heq, Function.update_of_ne fun hchars => heq (characters_inj hother hkey hchars)]

/-- **A text is copied to its register.** -/
theorem save_stores (hjq : Documented jq) {text : Bytes}
    (h : Stores (d.dbfile.getD Localdb.created) m.registers m.prompted) (hreg : Argument reg)
    (htext : Ascii text) : ∃ db, save jq (register reg) text d = { d with dbfile := some db }
      ∧ Stores db (m.keep reg text).registers m.prompted := by
  obtain ⟨o, map, hrepresents, hregisters, hprompt⟩ := h
  have hkey := register_argument hreg
  refine ⟨_, rfl, ?_⟩
  by_cases hnone : substitute text = []
  · have hload := congrArg (fun r => r.1.dbfile) (load_eq hjq hrepresents (register_ne_nil reg) hkey)
    have hkept : (localdb jq d.dbfile (characters (register reg)) []).1 = d.dbfile.getD Localdb.created :=
      Option.some.inj hload
    rw [Memory.keep, if_pos hnone, hnone]
    exact ⟨o, map, hkept ▸ hrepresents, hregisters, hprompt⟩
  · obtain ⟨o', hset⟩ := localdb_set hjq hrepresents (register_ne_nil reg) hkey
      (substitute_argument htext) hnone
    rw [Memory.keep, if_neg hnone]
    refine ⟨o', _, hset, fun other hother => ?_, ?_⟩
    · rw [valueOf_update hkey.ascii (register_argument hother).ascii]
      dsimp only
      by_cases heq : other = reg
      · subst heq
        rw [if_pos rfl, Function.update_self]
        exact congrArg some (utf8_characters (substitute_argument htext).ascii)
      · rw [if_neg fun hkeys => heq (register_inj hkeys), Function.update_of_ne heq]
        exact hregisters other hother
    · rw [valueOf_update hkey.ascii (by decide), if_neg (register_ne_prompt reg).symm]
      exact hprompt

theorem prompt_stores (hjq : Documented jq) {dbfile : Option Bytes}
    (h : Stores (dbfile.getD Localdb.created) registers prompted) (hvalue : Argument value)
    (hsome : value ≠ []) :
    Stores (localdb jq dbfile (characters (lit "prompt")) (characters value)).1 registers (some value) := by
  obtain ⟨o, map, hrepresents, hregisters, -⟩ := h
  have hkey : Argument (lit "prompt") := by decide
  obtain ⟨o', hset⟩ := localdb_set hjq hrepresents (by decide) hkey hvalue hsome
  refine ⟨o', _, hset, fun reg hreg => ?_, ?_⟩
  · rw [valueOf_update hkey.ascii (register_argument hreg).ascii, if_neg (register_ne_prompt reg)]
    exact hregisters reg hreg
  · rw [valueOf_update hkey.ascii hkey.ascii, if_pos rfl]
    exact congrArg some (utf8_characters hvalue.ascii)

/-! ## All actions -/

/-- The desktop of a memory, with a file. -/
def Memory.desktop (m : Memory) (dbfile : Option Bytes) : Desktop :=
  ⟨dbfile, m.primary, m.clipboard, m.pasted, m.evaluated⟩

/-- The file has what the memory has. -/
structure Keeps (dbfile : Option Bytes) (m : Memory) : Prop where
  file : Stores (dbfile.getD Localdb.created) m.registers m.prompted
  primary : Ascii m.primary
  clipboard : Ascii m.clipboard

theorem Memory.ascii_copied (hclipboard : Ascii m.clipboard) {focus : Window} (hfocus : focus.Ascii) :
    Ascii (m.copied focus) := by
  cases focus with
  | terminal => exact hclipboard
  | program selected =>
    cases selected with
    | none => exact hclipboard
    | some selected => exact hfocus

/-- What is recalled from a register. -/
theorem Keeps.load {dbfile : Option Bytes} (hjq : Documented jq) (h : Keeps dbfile m) (hreg : Argument reg)
    (hfile : d.dbfile = dbfile) : load jq (register reg) d =
        ({ d with dbfile := some (dbfile.getD Localdb.created) }, m.recalled reg)
      ∧ Ascii (m.recalled reg) := by
  subst hfile
  obtain ⟨o, map, hrepresents, hregisters, -⟩ := h.file
  rw [load_eq hjq hrepresents (register_ne_nil reg) (register_argument hreg), Memory.recalled,
    ← hregisters reg hreg]
  refine ⟨rfl, ?_⟩
  cases hvalue : valueOf map (register reg) with
  | none => decide
  | some value => exact ascii_valueOf hvalue

/-- **Every action** does to the desktop what it does to the memory. -/
theorem Keeps.act {dbfile : Option Bytes} (hjq : Documented jq) (h : Keeps dbfile m) {a : Action}
    (ha : a.Ascii) :
    ∃ dbfile', act jq (m.desktop dbfile) a = (m.act a).desktop dbfile' ∧ Keeps dbfile' (m.act a) := by
  cases a with
  | select text => exact ⟨dbfile, rfl, h.file, ha, h.clipboard⟩
  | cut text => exact ⟨dbfile, rfl, h.file, h.primary, ha⟩
  | copy focus =>
    have hcopied := Memory.ascii_copied h.clipboard ha
    cases focus with
    | terminal => exact ⟨dbfile, rfl, h.file, h.primary, h.primary⟩
    | program selected =>
      cases selected with
      | none => exact ⟨dbfile, rfl, h.file, hcopied, hcopied⟩
      | some selected => exact ⟨dbfile, rfl, h.file, hcopied, hcopied⟩
  | paste focus =>
    cases focus with
    | terminal => exact ⟨dbfile, rfl, h.file, h.primary, h.clipboard⟩
    | program selected => exact ⟨dbfile, rfl, h.file, h.primary, h.clipboard⟩
  | copytoregister reg focus =>
    obtain ⟨hreg, hfocus⟩ := ha
    have hcopied := Memory.ascii_copied h.clipboard hfocus
    cases focus with
    | terminal =>
      obtain ⟨db, hsaved, hstores⟩ :=
        save_stores hjq (d := m.desktop dbfile) (m := m) h.file hreg h.primary
      exact ⟨some db, hsaved, hstores, h.primary, h.clipboard⟩
    | program selected =>
      obtain ⟨db, hsaved, hstores⟩ := save_stores hjq
        (d := { m with clipboard := m.copied (.program selected) }.desktop dbfile) (m := m) h.file hreg hcopied
      cases selected with
      | none => exact ⟨some db, hsaved, hstores, h.primary, hcopied⟩
      | some selected => exact ⟨some db, hsaved, hstores, h.primary, hcopied⟩
  | pastefromregister reg focus =>
    obtain ⟨hreg, -⟩ := ha
    obtain ⟨hload, hascii⟩ := h.load hjq hreg (d := m.desktop dbfile) rfl
    refine ⟨some (dbfile.getD Localdb.created), ?_, ?_⟩
    · cases focus with
      | terminal =>
        rw [I3helper.act, pastefromregister, hload]
        rfl
      | program selected =>
        rw [I3helper.act, pastefromregister, hload]
        · rfl
        · exact fun heq => nomatch heq
    · cases focus with
      | terminal => exact ⟨h.file, hascii, h.clipboard⟩
      | program selected => exact ⟨h.file, h.primary, hascii⟩
  | prompt prompted =>
    by_cases hnone : prompted = []
    · subst hnone
      exact ⟨dbfile, rfl, h⟩
    · have hact : m.act (.prompt prompted) = { m with prompted := some prompted } := if_neg hnone
      have hprompt : I3helper.act jq (m.desktop dbfile) (.prompt prompted) =
          { m with prompted := some prompted }.desktop
            (some (localdb jq dbfile (characters (lit "prompt")) (characters prompted)).1) := if_neg hnone
      rw [hact]
      exact ⟨_, hprompt, prompt_stores hjq h.file ha hnone, h.primary, h.clipboard⟩
  | execute =>
    obtain ⟨o, map, hrepresents, hregisters, hprompt⟩ := h.file
    have hkey : lit "prompt" ≠ [] := by decide
    have hload := load_eq (d := m.desktop dbfile) hjq hrepresents hkey (by decide)
    refine ⟨some (dbfile.getD Localdb.created), ?_, ?_⟩
    · rw [I3helper.act, execute, hload, hprompt]
      rfl
    · exact ⟨h.file, h.primary, h.clipboard⟩

theorem stores_created : Stores Localdb.created (fun _ => none) none := by
  obtain ⟨o, h⟩ := Localdb.represents_created
  exact ⟨o, _, h, fun _ _ => rfl, rfl⟩

/-- **Registers keep what is copied to them.** After any actions, with the file created by the first of
them, the selections, what was pasted and what was evaluated are those of the memory. -/
theorem registers_kept (hjq : Documented jq) {primary clipboard : Bytes} (hprimary : Ascii primary)
    (hclipboard : Ascii clipboard) {actions : List Action} (hactions : ∀ a ∈ actions, a.Ascii) :
    ∃ dbfile, acts jq { dbfile := none, primary, clipboard } actions =
      (Memory.acts { primary, clipboard } actions).desktop dbfile := by
  have hkeeps : ∃ dbfile, acts jq { dbfile := none, primary, clipboard } actions =
      (Memory.acts { primary, clipboard } actions).desktop dbfile
        ∧ Keeps dbfile (Memory.acts { primary, clipboard } actions) := by
    induction actions using List.reverseRecOn with
    | nil => exact ⟨none, rfl, stores_created, hprimary, hclipboard⟩
    | append_singleton actions a ih =>
      obtain ⟨hactions, ha⟩ := List.forall_mem_append.mp hactions
      obtain ⟨dbfile, hdesktop, hkeeps⟩ := ih hactions
      obtain ⟨dbfile', hact, hkeeps'⟩ := hkeeps.act hjq (List.forall_mem_singleton.mp ha)
      have hacts : acts jq { dbfile := none, primary, clipboard } (actions ++ [a]) =
          act jq (acts jq { dbfile := none, primary, clipboard } actions) a := by
        rw [acts, List.foldl_append]
        rfl
      have hmemory : Memory.acts { primary, clipboard } (actions ++ [a]) =
          (Memory.acts { primary, clipboard } actions).act a := by
        rw [Memory.acts, List.foldl_append]
        rfl
      rw [hacts, hmemory, hdesktop]
      exact ⟨dbfile', hact, hkeeps'⟩
  obtain ⟨dbfile, hdesktop, -⟩ := hkeeps
  exact ⟨dbfile, hdesktop⟩

/-- A line is copied, something else is selected and an empty line copied, and the register pasted. -/
def oneRegister : List Action :=
  [.select (lit "word\n"), .copytoregister (lit "x") .terminal, .select (lit "\n"),
    .copytoregister (lit "x") .terminal, .pastefromregister (lit "x") .terminal]

theorem registers_kept_one : (acts Localdb.stringsJq { dbfile := none, primary := [], clipboard := [] }
    oneRegister).pasted = [lit "word"] := by
  have hword : Ascii (lit "word\n") := by decide
  have hempty : Ascii (lit "\n") := by decide
  have hreg : Argument (lit "x") := by decide
  have hactions : ∀ a ∈ oneRegister, a.Ascii := by
    simp only [oneRegister, List.forall_mem_cons]
    exact ⟨hword, ⟨hreg, trivial⟩, hempty, ⟨hreg, trivial⟩, ⟨hreg, trivial⟩, List.forall_mem_nil _⟩
  have hnothing : Ascii [] := List.forall_mem_nil _
  obtain ⟨dbfile, hdesktop⟩ :=
    registers_kept Localdb.documented_stringsJq hnothing hnothing hactions
  rw [hdesktop]
  show (Memory.acts { primary := [], clipboard := [] } oneRegister).pasted = [lit "word"]
  rfl

end Holchain.Bin.I3helper
