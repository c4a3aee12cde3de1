import Mathlib.Logic.Function.Basic
import Holchain.Bin.Localdb
import Holchain.Laws.Urlencode

/-!
# Laws.Localdb — a map

Everything rests on the codes that `urlencode` makes: a JSON string and a jq program hold them as
they stand, no command substitution takes anything away from them, and two texts never share one.
So the object in the file is the map of the runs so far, with the codes for the texts
(`Represents`).
-/

namespace Holchain.Bin.Localdb

open Holper (Bytes lit)

variable {jq : Jq} {db : Bytes} {o : Object}

/-! ## Codes -/

theorem hexDigit_literal : ∀ n < 16, isLiteral (hexDigit n) = true := by decide

theorem ofNat_literal {n : ℕ} (hlo : 45 ≤ n) (hhi : n < 127) (h : n ≠ 92) :
    isLiteral (.ofNat n) = true := by
  have hn : (UInt8.ofNat n).toNat = n := by
    rw [UInt8.toNat_ofNat']
    exact Nat.mod_eq_of_lt (by omega)
  have hne (m : ℕ) (hm : m < 128) (hnm : n ≠ m) : UInt8.ofNat n ≠ .ofNat m :=
    ofNat_ne (by omega) hm hnm
  simp only [isLiteral, Bool.and_eq_true, decide_eq_true_eq, bne_iff_ne, UInt8.le_iff_toNat_le,
    UInt8.lt_iff_toNat_lt, hn]
  refine ⟨⟨⟨?_, ?_⟩, hne 34 (by decide) (by omega)⟩, hne 92 (by decide) h⟩
  · show 32 ≤ n
    omega
  · show n < 127
    exact hhi

/-- A code has no characters that are special anywhere on its way. -/
theorem urlencode_literal (s : Text) : ∀ b ∈ urlencode s, isLiteral b = true := by
  intro b hb
  obtain ⟨c, -, hb⟩ := List.mem_flatMap.mp hb
  rw [urlencodeChar_eq] at hb
  split at hb
  next hplain =>
    obtain ⟨hlo, hhi, hbackslash⟩ := isPlain_bounds hplain
    rw [utf8EncodeChar_ascii (by omega)] at hb
    rw [List.mem_singleton.mp hb]
    exact ofNat_literal hlo hhi hbackslash
  · obtain ⟨x, hx, y, hy, more, hmore, heq⟩ := hex02_split c.toNat
    rw [percent02X, heq] at hb
    rcases List.mem_cons.mp hb with rfl | hb
    · decide
    · obtain ⟨d, hd, rfl⟩ : ∃ d < 16, hexDigit d = b := by
        have hall : b ∈ (x :: y :: more).map hexDigit := hb
        obtain ⟨d, hd, hdb⟩ := List.mem_map.mp hall
        refine ⟨d, ?_, hdb⟩
        rcases List.mem_cons.mp hd with rfl | hd
        · exact hx
        · rcases List.mem_cons.mp hd with rfl | hd
          · exact hy
          · exact hmore d hd
      exact hexDigit_literal d hd

theorem isLiteral_ne {c : UInt8} (h : isLiteral c = true) : c ≠ 0 ∧ c ≠ 10 ∧ c ≠ 34 := by
  refine ⟨?_, ?_, ?_⟩
  all_goals
    intro heq
    rw [heq] at h
    exact absurd h (by decide)

/-! ## Command substitutions -/

theorem substitute_whole {text : Bytes} (h : ∀ c ∈ text, c ≠ 0 ∧ c ≠ 10) :
    substitute text = text := by
  have hfilter : text.filter (· != 0) = text :=
    List.filter_eq_self.mpr fun c hc => bne_iff_ne.mpr (h c hc).1
  rw [substitute, hfilter, List.rdropWhile_eq_self_iff]
  intro hne hlast
  exact (h _ (List.getLast_mem hne)).2 (eq_of_beq hlast)

/-- A line without its end. -/
theorem substitute_line {text : Bytes} (h : ∀ c ∈ text, c ≠ 0 ∧ c ≠ 10) :
    substitute (text ++ [10]) = text := by
  rw [substitute_newline, substitute_whole h]

theorem substitute_urlencode (s : Text) : substitute (urlencode s) = urlencode s :=
  substitute_whole fun c hc =>
    ⟨(isLiteral_ne (urlencode_literal s c hc)).1, (isLiteral_ne (urlencode_literal s c hc)).2.1⟩

theorem quoted_ne {s : Bytes} (h : ∀ c ∈ s, isLiteral c = true) : ∀ c ∈ quoted s, c ≠ 0 ∧ c ≠ 10 := by
  intro c hc
  rcases List.mem_append.mp hc with hc | hc
  · rcases List.mem_cons.mp hc with rfl | hc
    · decide
    · exact ⟨(isLiteral_ne (h c hc)).1, (isLiteral_ne (h c hc)).2.1⟩
  · rw [List.mem_singleton.mp hc]
    decide

theorem intercalate_forall {p : UInt8 → Prop} {sep : Bytes} {texts : List Bytes}
    (hsep : ∀ c ∈ sep, p c) (h : ∀ text ∈ texts, ∀ c ∈ text, p c) :
    ∀ c ∈ sep.intercalate texts, p c := by
  induction texts with
  | nil => exact fun c hc => absurd hc List.not_mem_nil
  | cons text texts ih =>
    have htext := h text List.mem_cons_self
    have hrest := ih fun t ht => h t (List.mem_cons_of_mem text ht)
    cases texts with
    | nil =>
      rw [List.intercalate_singleton]
      exact htext
    | cons text' texts =>
      rw [List.intercalate_cons_cons]
      intro c hc
      rcases List.mem_append.mp hc with hc | hc
      · exact (List.mem_append.mp hc).elim (htext c) (hsep c)
      · exact hrest c hc

/-- The text of an object is one line. -/
theorem text_ne (o : Object) : ∀ c ∈ o.text, c ≠ 0 ∧ c ≠ 10 := by
  have hbrace : ∀ c ∈ lit "\x7b\x7d", c ≠ 0 ∧ c ≠ 10 := by
    intro c hc
    rcases List.mem_pair.mp hc with rfl | rfl
    · decide
    · decide
  have hmember : ∀ text ∈ o.members.map (fun m => quoted m.1 ++ lit ":" ++ quoted m.2),
      ∀ c ∈ text, c ≠ 0 ∧ c ≠ 10 := by
    intro text htext c hc
    obtain ⟨m, hm, rfl⟩ := List.mem_map.mp htext
    obtain ⟨hkey, hvalue⟩ := o.literal m hm
    rcases List.mem_append.mp hc with hc | hc
    · rcases List.mem_append.mp hc with hc | hc
      · exact quoted_ne hkey c hc
      · rw [List.mem_singleton.mp hc]
        decide
    · exact quoted_ne hvalue c hc
  intro c hc
  rcases List.mem_append.mp hc with hc | hc
  · rcases List.mem_append.mp hc with hc | hc
    · exact hbrace c (List.mem_append_left _ hc)
    · refine intercalate_forall (fun s hs => ?_) hmember c hc
      rw [List.mem_singleton.mp hs]
      decide
  · exact hbrace c (List.mem_cons_of_mem _ hc)

/-! ## One run -/

/-- What `tr`, the command substitution and `urldecode` make of what `jq` prints. -/
theorem printed_value {s : Text} (h : s.Ascii) :
    urldecodeScript [] ((valueText (some (urlencode s)) ++ [10]).filter (· != 34)) = s.utf8 := by
  have hliteral := urlencode_literal s
  have hfilter : (valueText (some (urlencode s)) ++ [10]).filter (· != 34) =
      urlencode s ++ [10] := by
    have hcode : (urlencode s).filter (· != 34) = urlencode s :=
      List.filter_eq_self.mpr fun c hc => bne_iff_ne.mpr (isLiteral_ne (hliteral c hc)).2.2
    show (34 :: urlencode s ++ [34] ++ [10]).filter (· != 34) = urlencode s ++ [10]
    rw [List.append_assoc, List.cons_append, List.filter_cons_of_neg (by decide),
      List.filter_append, hcode]
    rfl
  have hline : substitute (urlencode s ++ [10]) = urlencode s :=
    substitute_line fun c hc =>
      ⟨(isLiteral_ne (hliteral c hc)).1, (isLiteral_ne (hliteral c hc)).2.1⟩
  rw [urldecodeScript, if_pos rfl, hfilter, hline, urldecode_ascii h]

theorem printed_null :
    urldecodeScript [] ((valueText none ++ [10]).filter (· != 34)) = lit "null" := by decide

/-- The value that a run of `get` prints where the object has this member. -/
def valuePrinted : Option Entry → Bytes
  | some value => value.text.utf8
  | none => lit "null"

/-- The file holds the object in which the codes stand for the texts of a map. -/
def Represents (db : Bytes) (o : Object) (map : Text → Option Entry) : Prop :=
  db = o.text ++ [10] ∧ ∀ key : Text, key.Ascii →
    o.members.lookup (urlencode key) = (map key).map fun value => urlencode value.text

variable {map : Text → Option Entry}

theorem represents_created : ∃ o, Represents created o fun _ => none :=
  ⟨{ members := [], distinct := List.nodup_nil, literal := fun _ hm => absurd hm List.not_mem_nil },
    rfl, fun _ _ => rfl⟩

/-- `get` prints the value and leaves the file alone. -/
theorem Represents.get (hjq : Documented jq) (h : Represents db o map) (key : Entry) :
    (Run.get key).exec jq db = (db, valuePrinted (map key.text)) := by
  obtain ⟨hdb, hlookup⟩ := h
  have hcode := urlencode_literal key.text
  have hexec : (Run.get key).exec jq db =
      (db, urldecodeScript [] ((jq false (getProgram (urlencode key.text)) db).filter (· != 34))) := by
    simp only [Run.exec, localdb, if_neg key.nonempty, if_true, Option.getD_some,
      substitute_urlencode]
  rw [hexec, hdb, hjq.get o hcode, hlookup key.text key.ascii]
  cases map key.text with
  | none => rw [Option.map_none, printed_null]; rfl
  | some value => rw [Option.map_some, printed_value value.ascii]; rfl

/-- `set` replaces one value. -/
theorem Represents.set (hjq : Documented jq) (h : Represents db o map) (key value : Entry) :
    ∃ o', Represents ((Run.set key value).exec jq db).1 o'
      (Function.update map key.text (some value)) := by
  obtain ⟨hdb, hlookup⟩ := h
  obtain ⟨o', hjson, hself, hother⟩ :=
    hjq.add o (urlencode_literal key.text) (urlencode_literal value.text)
  have hexec : ((Run.set key value).exec jq db).1 = o'.text ++ [10] := by
    simp only [Run.exec, localdb, if_neg key.nonempty, if_neg value.nonempty, Option.getD_some,
      substitute_urlencode, hdb, hjson, substitute_line (text_ne o')]
  refine ⟨o', hexec, fun other hascii => ?_⟩
  by_cases heq : other = key.text
  · rw [heq, hself, Function.update_self]
    rfl
  · have hne : urlencode other ≠ urlencode key.text :=
      fun hcode => heq (urlencode_inj hascii key.ascii hcode)
    rw [hother _ hne, hlookup other hascii, Function.update_of_ne heq]

/-! ## All runs -/

/-- The value of the last `set` of a key. -/
def lastSet (runs : List Run) (key : Text) : Option Entry :=
  runs.reverse.findSome? fun
    | .set k value => if k.text = key then some value else none
    | .get _ => none

theorem lastSet_set (runs : List Run) (key value : Entry) :
    lastSet (runs ++ [.set key value]) = Function.update (lastSet runs) key.text (some value) := by
  funext other
  unfold lastSet
  rw [List.reverse_concat, List.findSome?_cons]
  by_cases heq : key.text = other
  · rw [← heq, Function.update_self]
    simp only [if_true]
  · rw [Function.update_of_ne fun h => heq h.symm]
    simp only [if_neg heq]

theorem lastSet_get (runs : List Run) (key : Entry) :
    lastSet (runs ++ [.get key]) = lastSet runs := by
  funext other
  unfold lastSet
  rw [List.reverse_concat, List.findSome?_cons]

theorem after_concat (runs : List Run) (run : Run) :
    after jq (runs ++ [run]) = (run.exec jq (after jq runs)).1 := by
  unfold after
  rw [List.foldl_append]
  rfl

/-- **The file is the map of the values set last**, after all runs. -/
theorem represents_after (hjq : Documented jq) (runs : List Run) :
    ∃ o, Represents (after jq runs) o (lastSet runs) := by
  induction runs using List.reverseRecOn with
  | nil => exact represents_created
  | append_singleton runs run ih =>
    obtain ⟨o, h⟩ := ih
    rw [after_concat]
    cases run with
    | set key value =>
      rw [lastSet_set]
      exact h.set hjq key value
    | get key =>
      rw [lastSet_get, h.get hjq key]
      exact ⟨o, h⟩

/-- **`localdb` is a map**: after all runs the file is a JSON object of strings, `get` prints the
value of the last `set` of its key, and a `set` changes what `get` prints for no other key. -/
theorem localdb_is_map (hjq : Documented jq) (runs : List Run) :
    (∃ o : Object, after jq runs = o.text ++ [10])
      ∧ (∀ key : Entry, ((Run.get key).exec jq (after jq runs)).2 =
        valuePrinted (lastSet runs key.text))
      ∧ ∀ key value other : Entry, other.text ≠ key.text →
        ((Run.get other).exec jq (after jq (runs ++ [.set key value]))).2 =
          ((Run.get other).exec jq (after jq runs)).2 := by
  have hprints (runs : List Run) (key : Entry) :
      ((Run.get key).exec jq (after jq runs)).2 = valuePrinted (lastSet runs key.text) := by
    obtain ⟨o, h⟩ := represents_after hjq runs
    rw [h.get hjq key]
  refine ⟨?_, hprints runs, fun key value other hne => ?_⟩
  · obtain ⟨o, h, -⟩ := represents_after hjq runs
    exact ⟨o, h⟩
  · rw [hprints, hprints, lastSet_set, Function.update_of_ne hne]

/-! ## A function that does what is assumed -/

/-- What stands between the quotation marks of a text. -/
def fields (text : Bytes) : List Bytes :=
  (Lib.Line.records text : List (Lib.Line (34 : UInt8))).map (·.val)

theorem fields_cons {field : Bytes} (h : 34 ∉ field) (rest : Bytes) :
    fields (field ++ 34 :: rest) = field :: fields rest := by
  unfold fields
  rw [Lib.Line.records_line ⟨field, h⟩, List.map_cons]

theorem fields_last {field : Bytes} (h : 34 ∉ field) (hne : field ≠ []) :
    fields field = [field] := by
  unfold fields
  rw [Lib.Line.records_val ⟨field, h⟩, if_neg hne]
  rfl

/-- The members, from the fields of an object: what stands before a key, the key, the colon and the
value. -/
def readMembers : List Bytes → List (Bytes × Bytes)
  | _ :: key :: _ :: value :: rest => (key, value) :: readMembers rest
  | _ => []

/-- A member in the place of the one with its key, or at the end. -/
def insertMember (key value : Bytes) : List (Bytes × Bytes) → List (Bytes × Bytes)
  | [] => [(key, value)]
  | m :: members =>
    if m.1 = key then (key, value) :: members else m :: insertMember key value members

/-- The two kinds of program that `localdb` makes, on objects of strings. -/
def stringsJq : Jq := fun _ program input =>
  let members := readMembers (fields input)
  match fields program with
  | [_, key, _, value, _] => objectText (insertMember key value members) ++ [10]
  | [_, key, _] => valueText (members.lookup key) ++ [10]
  | _ => []

theorem literal_notMem {s : Bytes} (h : ∀ c ∈ s, isLiteral c = true) : 34 ∉ s :=
  fun hmem => (isLiteral_ne (h 34 hmem)).2.2 rfl

/-- A member is read behind whatever stands before it. -/
theorem readMembers_member {before : Bytes} {m : Bytes × Bytes} (hbefore : 34 ∉ before)
    (hkey : 34 ∉ m.1) (hvalue : 34 ∉ m.2) (rest : Bytes) :
    readMembers (fields (before ++ (quoted m.1 ++ lit ":" ++ quoted m.2) ++ rest)) =
      m :: readMembers (fields rest) := by
  have htext : before ++ (quoted m.1 ++ lit ":" ++ quoted m.2) ++ rest =
      before ++ 34 :: (m.1 ++ 34 :: (lit ":" ++ 34 :: (m.2 ++ 34 :: rest))) := by
    simp only [quoted, List.append_assoc, List.cons_append, List.nil_append]
  rw [htext, fields_cons hbefore, fields_cons hkey, fields_cons (by decide), fields_cons hvalue]
  rfl

theorem readMembers_members {members : List (Bytes × Bytes)}
    (h : ∀ m ∈ members, 34 ∉ m.1 ∧ 34 ∉ m.2) (rest : Bytes) (hrest : readMembers (fields rest) = []) :
    readMembers (fields
      (members.flatMap (fun m => [44] ++ (quoted m.1 ++ lit ":" ++ quoted m.2)) ++ rest)) =
      members := by
  induction members with
  | nil => exact hrest
  | cons m members ih =>
    obtain ⟨hkey, hvalue⟩ := h m List.mem_cons_self
    rw [List.flatMap_cons, List.append_assoc,
      readMembers_member (by decide) hkey hvalue, ih fun m' hm' => h m' (List.mem_cons_of_mem m hm')]

theorem intercalate_cons (sep first : Bytes) (texts : List Bytes) :
    sep.intercalate (first :: texts) = first ++ texts.flatMap (sep ++ ·) := by
  induction texts generalizing first with
  | nil => rw [List.intercalate_singleton, List.flatMap_nil, List.append_nil]
  | cons text texts ih =>
    rw [List.intercalate_cons_cons, ih, List.flatMap_cons, List.append_assoc, List.append_assoc]

/-- The text of an object is read back. -/
theorem readMembers_text (o : Object) : readMembers (fields (o.text ++ [10])) = o.members := by
  obtain ⟨members, distinct, literal⟩ := o
  have hplain (m : Bytes × Bytes) (hm : m ∈ members) : 34 ∉ m.1 ∧ 34 ∉ m.2 :=
    ⟨literal_notMem (literal m hm).1, literal_notMem (literal m hm).2⟩
  have hend : readMembers (fields (lit "\x7d" ++ [10])) = [] := by decide
  cases members with
  | nil =>
    show readMembers (fields (lit "\x7b\x7d" ++ [10])) = []
    decide
  | cons m members =>
    obtain ⟨hkey, hvalue⟩ := hplain m List.mem_cons_self
    have hrest := readMembers_members (fun m' hm' => hplain m' (List.mem_cons_of_mem m hm')) _ hend
    unfold Object.text objectText
    rw [List.map_cons, intercalate_cons, List.flatMap_map, List.append_assoc,
      ← List.append_assoc (lit _), List.append_assoc, readMembers_member (by decide) hkey hvalue,
      hrest]

theorem mem_insertMember {key value : Bytes} {members : List (Bytes × Bytes)} {m : Bytes × Bytes}
    (h : m ∈ insertMember key value members) : m = (key, value) ∨ m ∈ members := by
  induction members with
  | nil => exact .inl (List.mem_singleton.mp h)
  | cons m' members ih =>
    rw [insertMember] at h
    split at h
    · exact (List.mem_cons.mp h).imp id (List.mem_cons_of_mem m')
    · rcases List.mem_cons.mp h with rfl | h
      · exact .inr List.mem_cons_self
      · exact (ih h).imp id (List.mem_cons_of_mem m')

theorem distinct_insertMember {key value : Bytes} {members : List (Bytes × Bytes)}
    (h : (members.map (·.1)).Nodup) : ((insertMember key value members).map (·.1)).Nodup := by
  induction members with
  | nil => exact List.nodup_cons.mpr ⟨List.not_mem_nil, List.nodup_nil⟩
  | cons m members ih =>
    rw [List.map_cons, List.nodup_cons] at h
    obtain ⟨hm, hrest⟩ := h
    rw [insertMember]
    split
    next heq =>
      rw [List.map_cons, List.nodup_cons]
      exact ⟨heq ▸ hm, hrest⟩
    next hne =>
      rw [List.map_cons, List.nodup_cons]
      refine ⟨fun hmem => ?_, ih hrest⟩
      obtain ⟨m', hm', heq⟩ := List.mem_map.mp hmem
      rcases mem_insertMember hm' with rfl | hm'
      · exact hne heq.symm
      · exact hm (List.mem_map.mpr ⟨m', hm', heq⟩)

theorem lookup_insertMember (key value other : Bytes) (members : List (Bytes × Bytes)) :
    (insertMember key value members).lookup other =
      if other = key then some value else members.lookup other := by
  induction members with
  | nil =>
    rw [insertMember, List.lookup_singleton, List.lookup_nil]
    simp only [beq_iff_eq]
  | cons m members ih =>
    rw [insertMember]
    by_cases hm : m.1 = key
    · rw [if_pos hm, List.lookup_cons, List.lookup_cons, hm]
      by_cases heq : other = key
      · rw [if_pos heq, beq_iff_eq.mpr heq]
      · rw [if_neg heq, beq_eq_false_iff_ne.mpr heq]
    · rw [if_neg hm, List.lookup_cons, List.lookup_cons, ih]
      by_cases heq : other = m.1
      · have hne : ¬ other = key := fun h => hm (heq.symm.trans h)
        simp only [beq_iff_eq.mpr heq, if_neg hne]
      · rw [beq_eq_false_iff_ne.mpr heq]

/-- The object with a member replaced or added. -/
def Object.insert (o : Object) {key value : Bytes} (hkey : ∀ c ∈ key, isLiteral c = true)
    (hvalue : ∀ c ∈ value, isLiteral c = true) : Object where
  members := insertMember key value o.members
  distinct := distinct_insertMember o.distinct
  literal m hm := (mem_insertMember hm).elim (fun h => h ▸ ⟨hkey, hvalue⟩) (o.literal m)

theorem documented_stringsJq : Documented stringsJq where
  add o key value hkey hvalue := by
    have hprogram : fields (addProgram key value) =
        [lit ". + \x7b", key, lit ": ", value, lit "\x7d"] := by
      have htext : addProgram key value = lit ". + \x7b" ++ 34 :: (key ++ 34 :: (lit ": " ++
          34 :: (value ++ 34 :: lit "\x7d"))) := by
        simp only [addProgram, List.append_assoc]
        rfl
      rw [htext, fields_cons (by decide), fields_cons (literal_notMem hkey),
        fields_cons (by decide), fields_cons (literal_notMem hvalue),
        fields_last (by decide) (by decide)]
    refine ⟨o.insert hkey hvalue, ?_, ?_, fun other hne => ?_⟩
    · simp only [stringsJq, hprogram, readMembers_text]
      rfl
    · exact (lookup_insertMember key value key o.members).trans (if_pos rfl)
    · exact (lookup_insertMember key value other o.members).trans (if_neg hne)
  get o key hkey := by
    have hprogram : fields (getProgram key) = [lit ".[", key, lit "]"] := by
      have htext : getProgram key = lit ".[" ++ 34 :: (key ++ 34 :: lit "]") := by
        simp only [getProgram, List.append_assoc]
        rfl
      rw [htext, fields_cons (by decide), fields_cons (literal_notMem hkey),
        fields_last (by decide) (by decide)]
    simp only [stringsJq, hprogram, readMembers_text]

theorem ascii_of_all {s : Text} (h : (s.all fun c => decide (c.toNat < 128)) = true) : s.Ascii :=
  fun c hc => of_decide_eq_true (List.all_eq_true.mp h c hc)

/-- A key with a quotation mark and a space. -/
def oddKey : Entry where
  text := ['a', '"', ' ']
  nonempty := by decide
  ascii := ascii_of_all (by decide)
  noNul := by decide

/-- A value with a percent sign, a plus sign, a backslash and a newline at its end. -/
def oddValue : Entry where
  text := ['%', '+', '\\', '\n']
  nonempty := by decide
  ascii := ascii_of_all (by decide)
  noNul := by decide

/-- It comes back. -/
theorem localdb_is_map_odd :
    ((Run.get oddKey).exec stringsJq (after stringsJq [.set oddKey oddValue])).2 =
      [37, 43, 92, 10] := by
  obtain ⟨-, hget, -⟩ := localdb_is_map documented_stringsJq [.set oddKey oddValue]
  rw [hget oddKey]
  rfl

end Holchain.Bin.Localdb
