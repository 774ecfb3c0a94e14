import Thumb.Command.Assembler
import Thumb.Proofs.AssembledStep
import Thumb.Proofs.DataImage

namespace Thumb

namespace Text

theorem digit?_digitChar {d : Nat} (h : d < 16) : digit? 16 (Nat.digitChar d) = some d := by
  have hall : ∀ d < 16, digit? 16 (Nat.digitChar d) = some d := by decide
  exact hall d h

theorem foldlM_toDigits (n : Nat) :
    (Nat.toDigits 16 n).foldlM (fun n c => (digit? 16 c).map (n * 16 + ·)) 0 = some n := by
  induction n using Nat.strongRecOn with
  | ind n ih =>
    rw [Nat.toDigits_eq_if (by decide)]
    split
    case isTrue hlt =>
      simp [digit?_digitChar hlt]
    case isFalse hge =>
      rw [List.foldlM_append, ih (n / 16) (by omega)]
      simp [digit?_digitChar (Nat.mod_lt n (by decide)), Nat.div_add_mod']

theorem natural?_hex (digits n : Nat) : natural? 16 (hex digits n).toList = some n := by
  have hzeros (k : Nat) : (List.replicate k '0').foldlM
      (fun n c => (digit? 16 c).map (n * 16 + ·)) 0 = some 0 := by
    induction k with
    | zero => rfl
    | succ k ih =>
      rw [List.replicate_succ, List.foldlM_cons]
      exact ih
  have hne : ((Nat.toDigits 16 n).leftpad digits '0').isEmpty = false := by
    simp [List.leftpad]
  rw [hex, String.toList_ofList, natural?, hne, if_neg Bool.false_ne_true, List.leftpad,
    List.foldlM_append, hzeros]
  exact foldlM_toDigits n

theorem length_hex {digits n : Nat} (hpos : 0 < digits) (h : n < 16 ^ digits) :
    (hex digits n).toList.length = digits := by
  have hle := (Nat.length_toDigits_le_iff (by decide) hpos).mpr h
  rw [hex, String.toList_ofList, List.length_leftpad, Nat.max_eq_left hle]

theorem exists_column (width : Nat) (s : String) (tail : List Char) :
    ∃ rest, (column width s).toList ++ ' ' :: tail = s.toList ++ ' ' :: rest := by
  refine ⟨List.replicate (width - s.toList.length) ' ' ++ tail, ?_⟩
  rw [column, String.toList_ofList, List.rightpad, List.append_assoc, ← List.singleton_append,
    ← List.append_assoc (List.replicate _ _), ← List.replicate_succ', List.replicate_succ,
    List.cons_append]

end Text

namespace Word

theorem toList_address (addr : Word) :
    addr.address.toList = '0' :: 'x' :: (Text.hex 8 addr.toNat).toList := by
  show (Text.hexMarked 8 addr.toNat).toList = _
  rw [Text.hexMarked, String.toList_append]
  rfl

theorem length_address (addr : Word) : addr.address.toList.length = 10 := by
  rw [toList_address, List.length_cons, List.length_cons, Text.length_hex (by decide) addr.isLt]

theorem address_inj {a b : Word} (h : a.address = b.address) : a = b := by
  have htail := congrArg List.tail (congrArg List.tail (congrArg String.toList h))
  rw [toList_address, toList_address] at htail
  have hvalue := congrArg (Text.natural? 16) htail
  simp only [List.tail_cons, Text.natural?_hex, Option.some.injEq] at hvalue
  exact BitVec.eq_of_toNat_eq hvalue

end Word

namespace Form

variable {f : Form} {first : Halfword} {rest : List Halfword}

theorem layout_eq_singleton (h : f ≠ .branchLink) : ∃ u, f.layout = [u] := by
  cases f with
  | branchLink => exact absurd rfl h
  | _ => exact ⟨_, rfl⟩

theorem accepts_singleton_iff :
    f.accepts [first] = true ↔ f ≠ .branchLink ∧ f.accepts (first :: rest) = true := by
  by_cases h : f = .branchLink
  · subst h
    have hno : accepts .branchLink [first] = false := Bool.and_false _
    simp [hno]
  · obtain ⟨u, hu⟩ := layout_eq_singleton h
    simp [accepts, patterns, hu, fits, h]

theorem eq_branchLink_of_accepts (hlink : accepts .branchLink (first :: rest) = true)
    (h : f.accepts (first :: rest) = true) : f = .branchLink := by
  rcases f.firstPattern_apart .branchLink with heq | hapart | ⟨_, hother⟩ | ⟨_, hother⟩
  · exact heq
  · have hno := hapart.not_accepts (accepts_firstPattern h)
    rw [accepts_firstPattern hlink] at hno
    cases hno
  · cases hother
  · cases hother

/-- The first halfword finds the form that the whole opcode finds, unless that is a linked branch,
and then none. -/
theorem lookup?_singleton (first : Halfword) (rest : List Halfword) :
    lookup? [first] = (lookup? (first :: rest)).filter (· != .branchLink) := by
  rw [lookup?_eq_find?, lookup?_eq_find?]
  cases hfind : all.find? (·.accepts (first :: rest)) with
  | none =>
    rw [Option.filter_none, List.find?_eq_none]
    intro f hf hsingle
    exact List.find?_eq_none.mp hfind f hf (accepts_singleton_iff.mp hsingle).2
  | some f =>
    by_cases hlink : f = .branchLink
    · subst hlink
      have haccepts := List.find?_some hfind
      show _ = none
      rw [List.find?_eq_none]
      intro g _ hsingle
      obtain ⟨hne, hg⟩ := accepts_singleton_iff.mp hsingle
      exact hne (eq_branchLink_of_accepts haccepts hg)
    · -- Nothing that stands before the form is found by one halfword and not by two.
      rw [Option.filter_some, if_pos (bne_iff_ne.mpr hlink)]
      rw [List.find?_eq_some_iff_append] at hfind ⊢
      obtain ⟨haccepts, before, after, hall, hbefore⟩ := hfind
      refine ⟨accepts_singleton_iff.mpr ⟨hlink, haccepts⟩, before, after, hall, ?_⟩
      intro g hg
      have hno := hbefore g hg
      rw [Bool.not_eq_true', Bool.eq_false_iff] at hno ⊢
      exact fun hsingle => hno (accepts_singleton_iff.mp hsingle).2

theorem name_no_blank (f : Form) : ∀ c ∈ f.name.toList, (c != ' ') = true := by
  have hall : ∀ f ∈ all, f.name.toList.all (· != ' ') = true := by decide
  exact List.all_eq_true.mp (hall f f.mem_all)

end Form

namespace Executable

def halfwordAt? (x : Executable) (addr : Word) : Option Halfword :=
  (x.bytesAt addr 2).toOption.join.map Width.halfword.ofBytes

def decodeAt? (x : Executable) (addr : Word) : Option Decoded :=
  (x.halfwordAt? addr).bind fun first => decode? first (x.halfwordAt? (addr + 2))

variable {x : Executable}

theorem halfwordAt?_of_bytesAt {addr : Word} {v : Halfword}
    (h : x.bytesAt addr 2 = .ok (some (Width.halfword.toBytes v))) :
    x.halfwordAt? addr = some v := by
  rw [halfwordAt?, h]
  exact congrArg some (Width.ofBytes_toBytes .halfword v)

theorem exists_bytesAt (h : ∀ g ∈ x.segments, g.offset + g.size ≤ x.content.length) (addr : Word)
    (length : Nat) : ∃ bytes, x.bytesAt addr length = .ok bytes := by
  cases hfind : x.segments.find? (·.contains addr) with
  | none => exact ⟨none, by rw [bytesAt, hfind]⟩
  | some g =>
    by_cases hend : g.size < addr.toNat - g.address.toNat + length
    · refine ⟨none, ?_⟩
      rw [bytesAt, hfind]
      exact if_pos hend
    · have hin := List.find?_some hfind
      rw [Segment.contains, Bool.and_eq_true, decide_eq_true_eq] at hin
      have haddr : addr.toNat = g.address.toNat + (addr.toNat - g.address.toNat) := by omega
      exact ⟨_, bytesAt_of_find hfind (h g (List.mem_of_find?_eq_some hfind)) haddr (by omega)⟩

end Executable

namespace Object

/-- An executable that an object is linked to, and the bytes of the sections in it. -/
structure LinkedImage (o : Object) (bytes : Nat → List Byte) (x : Executable) : Prop where
  relocated : o.Relocated o.body o.relocations bytes
  content : x.content = o.image bytes
  segments : x.segments = segments o.codeSize o.linkedSize

theorem exists_linkedImage {p : Program} {o : Object} {x : Executable} (ho : ofProgram p = .ok o)
    (hx : o.link = .ok x) : ∃ bytes, o.LinkedImage bytes x := by
  obtain ⟨bytes, hrelocated, rfl⟩ := link_eq_ok (ofProgram_wellFormed ho) hx
  exact ⟨bytes, hrelocated, rfl, rfl⟩

namespace LinkedImage

variable {o : Object} {bytes : Nat → List Byte} {x : Executable} {k offset : Nat} {s : Section}

theorem length_content (h : o.LinkedImage bytes x) : x.content.length = o.linkedSize := by
  rw [h.content, length_image h.relocated.sized]

theorem exists_bytesAt (h : o.LinkedImage bytes x) (addr : Word) (length : Nat) :
    ∃ found, x.bytesAt addr length = .ok found := by
  apply Executable.exists_bytesAt
  intro g hg
  rw [h.segments] at hg
  rw [h.length_content]
  exact segment_within (Nat.le_add_right _ _) hg

theorem bytesAt_code (h : o.LinkedImage bytes x) (hs : o.sections[k]? = some s)
    (hkind : s.kind = .code) {length : Nat} (hpos : 0 < length) (hend : offset + length ≤ s.size)
    (haddr : o.addressOf k + offset < 2 ^ 32) :
    x.bytesAt (BitVec.ofNat 32 (o.addressOf k + offset)) length =
      .ok (some (((bytes k).drop offset).take length)) := by
  have hlast : o.fileOffset k + offset + length ≤ o.codeSize := by
    have hfile := fileOffset_add_le_code hs hkind
    omega
  have hnat : (BitVec.ofNat 32 (o.addressOf k + offset)).toNat =
      AddressMap.flashOrigin.toNat + (o.fileOffset k + offset) := by
    rw [BitVec.toNat_ofNat, Nat.mod_eq_of_lt haddr, addressOf_code hs hkind, Nat.add_assoc]
    rfl
  have hfind : x.segments.find? (·.contains (BitVec.ofNat 32 (o.addressOf k + offset))) =
      some { offset := 0, size := o.codeSize, address := AddressMap.flashOrigin } := by
    rw [h.segments, Object.segments]
    apply List.find?_cons_of_pos
    rw [Segment.contains, Bool.and_eq_true, decide_eq_true_eq, decide_eq_true_eq, hnat,
      Nat.add_sub_cancel_left]
    exact ⟨Nat.le_add_right _ _, Nat.lt_of_lt_of_le (Nat.lt_add_of_pos_right hpos) hlast⟩
  have hwithin : 0 + o.codeSize ≤ x.content.length := by
    rw [h.length_content, Nat.zero_add]
    exact Nat.le_add_right _ _
  rw [Executable.bytesAt_of_find hfind hwithin hnat hlast, h.content, Nat.zero_add,
    take_drop_image_add h.relocated.sized hs hend]

theorem halfwordAt?_code (h : o.LinkedImage bytes x) (hs : o.sections[k]? = some s)
    (hkind : s.kind = .code) {opcode : List Halfword} (hend : offset + 2 * opcode.length ≤ s.size)
    (hopcode : ((bytes k).drop offset).take (2 * opcode.length) = Draft.halfwordBytes opcode)
    {n : Nat} {v : Halfword} (hn : opcode[n]? = some v)
    (haddr : o.addressOf k + (offset + 2 * n) < 2 ^ 32) :
    x.halfwordAt? (BitVec.ofNat 32 (o.addressOf k + (offset + 2 * n))) = some v := by
  have hlt := (List.getElem?_eq_some_iff.mp hn).1
  have hhalfword : ((bytes k).drop (offset + 2 * n)).take 2 = Width.halfword.toBytes v := by
    rw [← Draft.take_drop_halfwordBytes hn, ← hopcode, List.drop_take, List.take_take,
      List.drop_drop, Nat.min_eq_left (by omega)]
  apply Executable.halfwordAt?_of_bytesAt
  rw [h.bytesAt_code hs hkind (by decide) (by omega) haddr, hhalfword]

theorem decodeAt?_instructionAt (h : o.LinkedImage bytes x) (hs : o.sections[k]? = some s)
    (hkind : s.kind = .code) {r : Record} {form : Form} {placeholder : List Halfword}
    (hat : o.InstructionAt k offset r form placeholder)
    (haddr : o.addressOf k + offset + 2 < 2 ^ 32) :
    ∃ i : Instr, form.encode r.operands (some (o.labelsAt (o.addressOf k + offset))) =
        .ok i.encode ∧
      x.decodeAt? (BitVec.ofNat 32 (o.addressOf k + offset)) =
        some ⟨i.decodedForm, i.encode⟩ := by
  obtain ⟨_, hs', hle⟩ := hat.inside
  cases hs.symm.trans hs'
  obtain ⟨opcode, hencode, hlen, hopcode⟩ := h.relocated.instruction hat
  rw [← hlen] at hle
  obtain ⟨i, _, rfl⟩ := Form.encode_eq_ok.mp hencode
  refine ⟨i, hencode, ?_⟩
  obtain ⟨first, others, hi⟩ := i.encode_eq_cons
  have hzero : i.encode[0]? = some first := by rw [hi, List.getElem?_cons_zero]
  have hfirst := h.halfwordAt?_code hs hkind hle hopcode hzero (by omega)
  rw [Nat.mul_zero, Nat.add_zero] at hfirst
  rw [Executable.decodeAt?, hfirst, Option.bind_some]
  apply i.decode?_of_getElem? hzero
  intro second hone
  have hsecond := h.halfwordAt?_code hs hkind hle hopcode hone (by omega)
  rwa [Nat.mul_one, ← Nat.add_assoc, BitVec.ofNat_add] at hsecond

end LinkedImage

theorem RecordAt.instructionAt {p : Program} {o : Object} {i j address : Nat} {a : Area}
    {r : Record} (h : o.RecordAt p i j r address) (ho : ofProgram p = .ok o)
    (ha : p.areas[i]? = some a)
    (hkind : a.kind = .code) (hr : a.records[j]? = some r) (hinstr : r.kind = .instruction) :
    ∃ s offset r' form placeholder, o.sections[i]? = some s ∧ s.kind = .code ∧
      o.addressOf i + offset = address ∧ o.InstructionAt i offset r' form placeholder := by
  obtain ⟨d, m, form, placeholder, _, hmark, rfl, _, hat⟩ := ofProgram_instruction ho ha hr hinstr
  obtain ⟨m', hmark', _, haddress⟩ := h.mark ho
  cases hmark.symm.trans hmark'
  obtain ⟨s, hs, _⟩ := hat.inside
  have hcode := ((ofProgram_wellFormed ho).kind_eq ha hs).trans hkind
  exact ⟨s, m.offset, _, form, placeholder, hs, hcode, haddress, hat⟩

end Object

namespace Assembler

/-- The name that a map shows for a decoded opcode. -/
def shownName (decoded : Option Decoded) : String :=
  decoded.elim "" fun d => if d.form = .branchLink then "" else d.form.name

theorem name_of_halfwordAt? (x : Executable) (addr : Word) :
    ((x.halfwordAt? addr).bind fun v => Form.lookup? [v]).elim "" Form.name =
      shownName (x.decodeAt? addr) := by
  unfold Executable.decodeAt?
  cases x.halfwordAt? addr with
  | none => rfl
  | some first =>
    simp only [Option.bind_some, decode?]
    rw [Form.lookup?_singleton first (x.halfwordAt? (addr + 2)).toList]
    cases Form.lookup? (first :: (x.halfwordAt? (addr + 2)).toList) with
    | none => rfl
    | some f =>
      by_cases h : f = .branchLink
      · subst h
        rfl
      · simp [shownName, Option.filter_some, h]

/-- The address that a line of a map begins with. -/
def addressColumn (line : String) : String :=
  String.ofList (line.toList.take 10)

def mnemonicColumn (line : String) : String :=
  String.ofList ((line.toList.drop 18).takeWhile (· != ' '))

section Line

variable (source : List String) (addr : Word) (line : Nat) (opcode : Option Halfword)

theorem toList_mapLine :
    ∃ digits rest : List Char, digits.length = 4 ∧
      (mapLine source addr line opcode).toList =
        addr.address.toList ++ ([' ', ' '] ++ digits ++ [' ', ' ']) ++
          (((opcode.bind fun v => Form.lookup? [v]).elim "" Form.name).toList ++ ' ' :: rest) := by
  have hdigits : (opcode.elim "----" fun v => Text.hex 4 v.toNat).toList.length = 4 := by
    cases opcode with
    | none => rfl
    | some v => exact Text.length_hex (by decide) v.isLt
  obtain ⟨rest, hrest⟩ := Text.exists_column 6
    ((opcode.bind fun v => Form.lookup? [v]).elim "" Form.name)
    (Text.columnRight 5 (line + 1).repr ++ ": " ++ Text.trimmed (source.getD line "")).toList
  refine ⟨_, rest, hdigits, ?_⟩
  rw [← hrest]
  have hblank : " ".toList = [' '] := rfl
  have hblanks : "  ".toList = [' ', ' '] := rfl
  simp only [mapLine, toString, String.toList_append, List.append_assoc, hblank, hblanks,
    List.cons_append, List.nil_append]

theorem addressColumn_mapLine : addressColumn (mapLine source addr line opcode) = addr.address := by
  obtain ⟨digits, rest, _, hline⟩ := toList_mapLine source addr line opcode
  rw [addressColumn, hline, List.append_assoc, List.take_left' addr.length_address,
    String.ofList_toList]

theorem mnemonicColumn_mapLine :
    mnemonicColumn (mapLine source addr line opcode) =
      (opcode.bind fun v => Form.lookup? [v]).elim "" Form.name := by
  have hblank : ∀ c ∈ ((opcode.bind fun v => Form.lookup? [v]).elim "" Form.name).toList,
      (c != ' ') = true := by
    cases opcode.bind fun v => Form.lookup? [v] with
    | none => exact List.forall_mem_nil _
    | some f => exact Form.name_no_blank f
  obtain ⟨digits, rest, hdigits, hline⟩ := toList_mapLine source addr line opcode
  have hfront : (addr.address.toList ++ ([' ', ' '] ++ digits ++ [' ', ' '])).length = 18 := by
    simp only [List.length_append, addr.length_address, hdigits, List.length_cons, List.length_nil]
  rw [mnemonicColumn, hline, List.drop_left' hfront, List.takeWhile_append_of_pos hblank,
    List.takeWhile_cons_of_neg (by decide), List.append_nil, String.ofList_toList]

end Line

theorem mapLines_eq {x : Executable} {source : List String} {entries : List (Word × Nat)}
    (h : ∀ e ∈ entries, ∃ bytes, x.bytesAt e.1 2 = .ok bytes) (done : List String) :
    mapLines x source done entries =
      .ok (done ++ entries.map fun e => mapLine source e.1 e.2 (x.halfwordAt? e.1)) := by
  induction entries generalizing done with
  | nil => rw [mapLines, List.map_nil, List.append_nil]
  | cons e entries ih =>
    obtain ⟨⟨bytes, hbytes⟩, hrest⟩ := List.forall_mem_cons.mp h
    have hhalfword : x.halfwordAt? e.1 = bytes.map Width.halfword.ofBytes := by
      rw [Executable.halfwordAt?, hbytes]
      rfl
    rw [mapLines, hbytes]
    dsimp only
    rw [ih hrest, List.map_cons, hhalfword, List.append_assoc, List.singleton_append]

/-- A map that shows a name at an address: there is a line for the address, and each such line has
the name. -/
structure ShowsAt (listing : List String) (addr : Word) (name : String) : Prop where
  listed : ∃ line ∈ listing, addressColumn line = addr.address
  named : ∀ line ∈ listing, addressColumn line = addr.address → mnemonicColumn line = name

theorem showsAt_of_lineAt {x : Executable} {addr : Word} {line : Nat}
    (h : x.lineAt addr = some line) (source : List String) :
    ShowsAt (x.lines.entries.map fun e => mapLine source e.1 e.2 (x.halfwordAt? e.1)) addr
      (shownName (x.decodeAt? addr)) := by
  have hmem := (Table.get?_eq_some_iff x.lines).mp h
  constructor
  case listed =>
    exact ⟨_, List.mem_map_of_mem hmem, addressColumn_mapLine source addr line _⟩
  case named =>
    intro text htext haddress
    obtain ⟨e, _, rfl⟩ := List.mem_map.mp htext
    rw [addressColumn_mapLine] at haddress
    rw [mnemonicColumn_mapLine, name_of_halfwordAt?, Word.address_inj haddress]

theorem mapLines_of_linkedImage {o : Object} {bytes : Nat → List Byte} {x : Executable}
    (h : o.LinkedImage bytes x) (source : List String) :
    mapLines x source [] x.lines.entries =
      .ok (x.lines.entries.map fun e => mapLine source e.1 e.2 (x.halfwordAt? e.1)) := by
  apply mapLines_eq
  intro e _
  exact h.exists_bytesAt e.1 2

end Assembler

namespace Work

variable {α β : Type} {files files' : Files}

theorem run_bind_ok {work : Work (StateM Files) α} {next : α → Work (StateM Files) β} {a : α}
    (h : work.run.run files = (.ok a, files')) :
    (work >>= next).run.run files = (next a).run.run files' := by
  rw [ExceptT.run_bind, StateT.run_bind, h]
  rfl

theorem run_outcome {work : Work (StateM Files) Outcome} {o : Outcome}
    (h : work.run.run files = (.ok o, files')) : work.outcome.run files = (o, files') := by
  rw [outcome, StateT.run_bind, h]
  rfl

theorem run_readFile {path text : String} (h : files.read path = .ok text) :
    (readFile path : Work (StateM Files) String).run.run files = (.ok text, files) := by
  have hlift : (liftM (FileSystem.read path : StateM Files _) :
      Work (StateM Files) _).run.run files = (.ok (files.read path), files) := rfl
  rw [readFile, run_bind_ok hlift, h]
  rfl

end Work

namespace Assembler

section Source

variable {files : Files} {path source : String}

theorem run_readInput (hread : files.read path = .ok source) (hsource : Path.isImage path = false)
    {x : Executable} (hx : assemble source = .ok x) :
    (readInput path : Work (StateM Files) Executable).run.run files = (.ok x, files) := by
  rw [readInput, Work.readExecutable, Work.run_bind_ok (Work.run_readFile hread), hsource,
    if_neg Bool.false_ne_true, Work.assembleText, hx]
  rfl

theorem run_readSource (hread : files.read path = .ok source)
    (hsource : Path.isImage path = false) :
    (readSource path none : Work (StateM Files) (List String)).run.run files =
      (.ok ((Text.lines source.toList).map String.ofList), files) := by
  rw [readSource, hsource, if_neg Bool.false_ne_true, Option.none_or]
  exact Work.run_bind_ok (Work.run_readFile hread)

end Source

theorem run_map {args : List String} {path : String} {option : Option String} {files : Files}
    {x : Executable} {quoted listing : List String}
    (hargs : parseRequest args = .ok (.map path option))
    (hinput : (readInput path : Work (StateM Files) Executable).run.run files = (.ok x, files))
    (hquoted : (readSource path option : Work (StateM Files) (List String)).run.run files =
      (.ok quoted, files))
    (hlisting : mapLines x quoted [] x.lines.entries = .ok listing) :
    (run args : StateM Files Outcome).run files = ({ output := lines listing }, files) := by
  rw [run, hargs]
  apply Work.run_outcome
  rw [perform, Work.run_bind_ok hinput, Work.run_bind_ok hquoted, hlisting]
  rfl

/-- For every text that is assembled, however the command is told to map its executable, and for
every instruction of its code, the name that the map shows at the address of the instruction is that
of the form which the decoder finds there, or none if that is a linked branch. A board that holds
the executable fetches just this form from the address. -/
theorem map_names_decoded_form (source : String) (x : Executable) (hx : assemble source = .ok x)
    (files : Files) (args : List String) (path : String) (option : Option String)
    (hargs : parseRequest args = .ok (.map path option))
    (hinput : (readInput path : Work (StateM Files) Executable).run.run files = (.ok x, files))
    (quoted : List String)
    (hquoted : (readSource path option : Work (StateM Files) (List String)).run.run files =
      (.ok quoted, files)) :
    ∃ p o listing, Source.parse source = .ok p ∧ Object.ofProgram p = .ok o ∧ o.link = .ok x ∧
      (run args : StateM Files Outcome).run files = ({ output := lines listing }, files) ∧
      ∀ i j a r, p.areas[i]? = some a → a.kind = .code → a.records[j]? = some r →
        r.kind = .instruction →
        ∃ address, o.RecordAt p i j r address ∧
          ShowsAt listing (BitVec.ofNat 32 address)
            (shownName (x.decodeAt? (BitVec.ofNat 32 address))) ∧
          (address + 2 < 2 ^ 32 → ∃ d, x.decodeAt? (BitVec.ofNat 32 address) = some d) ∧
          ∀ loaded, Board.load x (Board.ofConfig {}) = .ok () loaded →
            ∃ d, x.decodeAt? (BitVec.ofNat 32 address) = some d ∧
              ∀ b : Board, b.HoldsImage x → ∀ regs,
                Exec.fetch (BitVec.ofNat 32 address) ⟨regs, b.memory⟩ =
                  .ok d ⟨regs, b.memory⟩ := by
  obtain ⟨p, hp, h⟩ := bind_ok_iff.mp hx
  obtain ⟨o, ho, hlink⟩ := bind_ok_iff.mp h
  obtain ⟨bytes, hlinked⟩ := Object.exists_linkedImage ho hlink
  refine ⟨p, o, _, hp, ho, hlink,
    run_map hargs hinput hquoted (mapLines_of_linkedImage hlinked quoted), ?_⟩
  intro i j a r ha hkind hr hinstr
  obtain ⟨address, hat⟩ := Object.exists_recordAt ho ha hr
  obtain ⟨line, hline⟩ := hat.line ho hlink
  obtain ⟨s, offset, r', form, placeholder, hs, hcode, rfl, hopcode⟩ :=
    hat.instructionAt ho ha hkind hr hinstr
  have hdecode := hlinked.decodeAt?_instructionAt hs hcode hopcode
  refine ⟨_, hat, showsAt_of_lineAt hline quoted, ?_, ?_⟩
  · intro haddress
    obtain ⟨_, _, hfound⟩ := hdecode haddress
    exact ⟨_, hfound⟩
  · intro loaded hload
    obtain ⟨_, p', o', _, hp', ho', _, hflash⟩ := Board.load_flashImage hx hload
    cases hp.symm.trans hp'
    cases ho.symm.trans ho'
    have haddress : o.addressOf i + offset + 2 < 2 ^ 32 := by
      obtain ⟨s', hs', hinside⟩ := hopcode.inside
      cases hs.symm.trans hs'
      have hend := hflash.address_add_le hs hcode
      omega
    obtain ⟨_, hencode, hfound⟩ := hdecode haddress
    exact ⟨_, hfound, fun _ hb => Board.fetch_instructionAt hflash hs hcode hopcode hencode hb⟩

/-- A shift by zero, which is decoded as a move, and a linked branch. -/
theorem map_names_decoded_form_branch :
    let source := "a LSLS R1, R2, #0\n BL a\n"
    let files : Files := .ofList [("p.s", source)]
    ∃ x listing, assemble source = .ok x ∧
      (run ["map", "p.s"] : StateM Files Outcome).run files = ({ output := lines listing }, files) ∧
      ShowsAt listing 0x08000008 "MOVS" ∧ ShowsAt listing 0x0800000A "" := by
  intro source files
  let p : Program := {
    areas := [{
      name := ".text", kind := .code, readOnly := true, records := [
        { label := some "a", mnemonic := "LSLS", operands := ["R1", "R2", "#0"], line := 0 },
        { label := none, mnemonic := "BL", operands := ["a"], line := 1 }] }] }
  have hparse : Source.parse source = .ok p := by decide
  have hread : files.read "p.s" = .ok source := by decide
  have hplaces : (do
      let o ← (Object.ofProgram p).toOption
      let d ← (Object.Draft.before p 0 0).toOption
      let d' ← (Object.Draft.before p 0 1).toOption
      return (o.addressOf 0 + (d.align 2).bytes.length,
        o.addressOf 0 + (d'.align 2).bytes.length)) = some (0x08000008, 0x0800000A) := by
    decide
  have hnames : (assemble source).toOption.map (fun x =>
      (shownName (x.decodeAt? 0x08000008), shownName (x.decodeAt? 0x0800000A))) =
        some ("MOVS", "") := by
    decide
  cases hx : assemble source with
  | error e =>
    rw [hx] at hnames
    cases hnames
  | ok x =>
    obtain ⟨p', o, listing, hp, ho, _, hrun, hrecords⟩ := map_names_decoded_form source x hx files
      ["map", "p.s"] "p.s" none (by decide) (run_readInput hread (by decide) hx) _
      (run_readSource hread (by decide))
    cases hparse.symm.trans hp
    obtain ⟨address, ⟨_, d, hd, hfirst⟩, hmove, _⟩ := hrecords 0 0 _ _ rfl rfl rfl rfl
    obtain ⟨address', ⟨_, d', hd', hsecond⟩, hbranch, _⟩ := hrecords 0 1 _ _ rfl rfl rfl rfl
    simp only [ho, hd, hd', Except.toOption, bind, Option.bind_some, pure, Option.some.injEq,
      Prod.mk.injEq] at hplaces
    obtain rfl : address = 0x08000008 := hfirst.symm.trans hplaces.1
    obtain rfl : address' = 0x0800000A := hsecond.symm.trans hplaces.2
    rw [hx] at hnames
    obtain ⟨hshift, hlink⟩ := Prod.mk.inj (Option.some.inj hnames)
    exact ⟨x, listing, rfl, hrun, hshift ▸ hmove, hlink ▸ hbranch⟩

/-- The command shows nothing but blanks where the decoder finds a linked branch. -/
theorem map_linked_branch_unnamed :
    let source := "a BL a\n"
    let files : Files := .ofList [("p.s", source)]
    let line := "0x08000008  f7ff             1: a BL a"
    (run ["map", "p.s"] : StateM Files Outcome).run files = ({ output := line ++ "\n" }, files) ∧
    mnemonicColumn line = "" ∧
    (assemble source).toOption.bind (fun x => (x.decodeAt? 0x08000008).map (·.form.name)) =
      some "BL" := by
  intro source files line
  have hrun : Id.run ((run ["map", "p.s"] : StateM Files Outcome).run files) =
      ({ output := line ++ "\n" }, files) := by
    decide
  exact ⟨hrun, by decide, by decide⟩

end Assembler

end Thumb
