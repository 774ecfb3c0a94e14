import Thumb.Proofs.BoardCalls
import Thumb.Proofs.Flash

namespace Thumb

def byteFrom (start : Nat) (bytes : List Byte) (a : Nat) : Option Byte :=
  if start ≤ a then bytes[a - start]? else none

theorem byteFrom_nil (start a : Nat) : byteFrom start [] a = none := by
  unfold byteFrom
  split
  · rfl
  · rfl

theorem byteFrom_isSome {start a : Nat} {bytes : List Byte} :
    (byteFrom start bytes a).isSome ↔ start ≤ a ∧ a < start + bytes.length := by
  unfold byteFrom
  split
  · rw [Option.isSome_iff_ne_none, Ne, List.getElem?_eq_none_iff]
    omega
  · simp [*]

namespace Region

variable {r : Region}

def Holds (r : Region) (a length : Nat) : Prop :=
  r.base.toNat ≤ a ∧ a + length ≤ r.base.toNat + r.size

instance (r : Region) (a length : Nat) : Decidable (r.Holds a length) :=
  inferInstanceAs (Decidable (_ ∧ _))

/-- The byte at an address, if the region has one there. -/
def byte? (r : Region) (a : Nat) : Option Byte :=
  byteFrom r.base.toNat r.bytes a

theorem contains_iff_holds {addr : Word} {length : Nat} :
    r.contains addr length = true ↔ r.Holds addr.toNat length := by
  rw [contains_iff, Holds]
  omega

theorem Holds.byte {a length i : Nat} (h : r.Holds a length) (hi : i < length) :
    r.Holds (a + i) 1 := by
  obtain ⟨hlow, hhigh⟩ := h
  constructor <;> omega

theorem isSome_byte? {a : Nat} : (r.byte? a).isSome ↔ r.Holds a 1 := by
  rw [byte?, byteFrom_isSome, bytes, List.length_map, List.length_range, Holds]
  omega

theorem byte?_of_holds {a : Nat} (h : r.Holds a 1) :
    r.byte? a = some (r.byteAt (a - r.base.toNat)) := by
  obtain ⟨hlow, hhigh⟩ := h
  have hin : a - r.base.toNat < r.size := by omega
  rw [byte?, byteFrom, if_pos hlow, bytes, List.getElem?_map, List.getElem?_range hin]
  rfl

theorem byte?_of_not_holds {a : Nat} (h : ¬r.Holds a 1) : r.byte? a = none := by
  rw [← isSome_byte?, Option.not_isSome_iff_eq_none] at h
  exact h

theorem getElem?_fetch {addr : Word} {length i : Nat} (h : r.Holds addr.toNat length)
    (hi : i < length) : (r.fetch addr length)[i]? = r.byte? (addr.toNat + i) := by
  rw [byte?_of_holds (h.byte hi), fetch, List.getElem?_map, List.getElem?_range' hi, Nat.one_mul,
    offset, Nat.sub_add_comm h.1]
  rfl

theorem map_byte? {addr : Word} {length : Nat} (h : r.Holds addr.toNat length) :
    (List.range' addr.toNat length).map r.byte? = (r.fetch addr length).map some := by
  apply List.ext_getElem?
  intro i
  rw [List.getElem?_map, List.getElem?_map]
  by_cases hi : i < length
  · rw [getElem?_fetch h hi, List.getElem?_range' hi, Nat.one_mul, Option.map_some,
      byte?_of_holds (h.byte hi), Option.map_some]
  · have hle := Nat.le_of_not_lt hi
    rw [List.getElem?_eq_none (by simpa using hle),
      List.getElem?_eq_none (by simpa [fetch] using hle)]
    rfl

theorem byte?_clear (r : Region) (a : Nat) : r.clear.byte? a = (r.byte? a).map fun _ => 0 := by
  by_cases h : r.Holds a 1
  · have hclear : r.clear.Holds a 1 := h
    rw [byte?_of_holds h, byte?_of_holds hclear, byteAt, clear, Std.TreeMap.getD_emptyc]
    rfl
  · have hclear : ¬r.clear.Holds a 1 := h
    rw [byte?_of_not_holds h, byte?_of_not_holds hclear]
    rfl

theorem byte?_program {addr : Word} {bytes : List Byte} (h : r.Holds addr.toNat bytes.length)
    (a : Nat) :
    (r.program addr bytes).byte? a = (byteFrom addr.toNat bytes a).or (r.byte? a) := by
  by_cases ha : r.Holds a 1
  · have hprogram : (r.program addr bytes).Holds a 1 := ha
    rw [byte?_of_holds hprogram, byte?_of_holds ha]
    obtain ⟨hbase, _⟩ := h
    obtain ⟨hlow, _⟩ := ha
    show some ((overwrite r.written (r.offset addr) bytes).getD (a - r.base.toNat) 0) = _
    rw [getD_overwrite, offset]
    by_cases hin : addr.toNat ≤ a ∧ a < addr.toNat + bytes.length
    · have hpos : a - r.base.toNat - (addr.toNat - r.base.toNat) = a - addr.toNat := by omega
      have hlt : a - addr.toNat < bytes.length := by omega
      rw [if_pos (by omega), hpos, byteFrom, if_pos hin.1, List.getElem?_eq_getElem hlt,
        List.getD_eq_getElem _ _ hlt]
      rfl
    · have hnone : byteFrom addr.toNat bytes a = none := by
        rw [← byteFrom_isSome, Option.not_isSome_iff_eq_none] at hin
        exact hin
      rw [if_neg (by omega), hnone]
      rfl
  · have hprogram : ¬(r.program addr bytes).Holds a 1 := ha
    have hnone : byteFrom addr.toNat bytes a = none := by
      rw [← Option.not_isSome_iff_eq_none, byteFrom_isSome]
      intro hin
      obtain ⟨hlow, hhigh⟩ := h
      apply ha
      constructor <;> omega
    rw [byte?_of_not_holds hprogram, byte?_of_not_holds ha, hnone]
    rfl

def Apart (r s : Region) : Prop :=
  ∀ a, ¬(r.Holds a 1 ∧ s.Holds a 1)

theorem Apart.byte?_eq_none {s : Region} (h : s.Apart r) {a : Nat} (ha : r.Holds a 1) :
    s.byte? a = none := by
  apply byte?_of_not_holds
  intro hholds
  exact h a ⟨hholds, ha⟩

end Region

namespace Memory

variable {m m' : Memory}

def Disjoint (m : Memory) : Prop :=
  m.regions.Pairwise Region.Apart

def byte? (m : Memory) (a : Nat) : Option Byte :=
  m.regions.findSome? (·.byte? a)

/-- A range that lies inside a single region. -/
def Inside (m : Memory) (a length : Nat) : Prop :=
  ∃ r ∈ m.regions, r.Holds a length

/-- A range that lies inside a single region that is not protected. -/
def Writable (m : Memory) (a length : Nat) : Prop :=
  ∃ r ∈ m.regions, r.Holds a length ∧ r.readOnly = false

instance (m : Memory) (a length : Nat) : Decidable (m.Inside a length) :=
  inferInstanceAs (Decidable (∃ r ∈ m.regions, r.Holds a length))

instance (m : Memory) (a length : Nat) : Decidable (m.Writable a length) :=
  inferInstanceAs (Decidable (∃ r ∈ m.regions, r.Holds a length ∧ r.readOnly = false))

theorem alterFirst_append {before after : List Region} {addr : Word} {length : Nat}
    {f : Region → Region} {r : Region}
    (hbefore : ∀ s ∈ before, (!s.contains addr length) = true)
    (hr : r.contains addr length = true) :
    alterFirst addr length f (before ++ r :: after) = before ++ f r :: after := by
  induction before with
  | nil => exact if_pos hr
  | cons s before ih =>
    obtain ⟨hs, hbefore⟩ := List.forall_mem_cons.mp hbefore
    rw [Bool.not_eq_true'] at hs
    rw [List.cons_append, alterFirst, hs, if_neg Bool.false_ne_true, ih hbefore]
    rfl

section Split

variable {before after : List Region} {r : Region} {a : Nat}

theorem findSome?_byte?_append (before after : List Region) (r : Region) (a : Nat) :
    (before ++ r :: after).findSome? (·.byte? a) =
      (before.findSome? (·.byte? a)).or ((r.byte? a).or (after.findSome? (·.byte? a))) := by
  rw [List.findSome?_append, List.findSome?_cons]
  cases r.byte? a with
  | none => rfl
  | some b => rfl

theorem findSome?_before (h : (before ++ r :: after).Pairwise Region.Apart) (ha : r.Holds a 1) :
    before.findSome? (·.byte? a) = none := by
  rw [List.findSome?_eq_none_iff]
  intro s hs
  have hapart := (List.pairwise_append.mp h).2.2 s hs r List.mem_cons_self
  exact hapart.byte?_eq_none ha

/-- A replaced region shows its new bytes, because no other region has an address of them. -/
theorem findSome?_replace (h : (before ++ r :: after).Pairwise Region.Apart) {r' : Region}
    {new : Option Byte} (hbyte : r'.byte? a = new.or (r.byte? a))
    (hnew : new.isSome → r.Holds a 1) :
    (before ++ r' :: after).findSome? (·.byte? a) =
      new.or ((before ++ r :: after).findSome? (·.byte? a)) := by
  rw [findSome?_byte?_append, findSome?_byte?_append, hbyte]
  cases new with
  | none => rfl
  | some b =>
    rw [findSome?_before h (hnew rfl)]
    rfl

end Split

theorem byte?_of_mem (hm : m.Disjoint) {r : Region} (hr : r ∈ m.regions) {a : Nat}
    (ha : r.Holds a 1) : m.byte? a = r.byte? a := by
  obtain ⟨before, after, hsplit⟩ := List.append_of_mem hr
  rw [Disjoint, hsplit] at hm
  rw [byte?, hsplit, findSome?_byte?_append, findSome?_before hm ha, Region.byte?_of_holds ha]
  rfl

theorem eq_of_holds (hm : m.Disjoint) {r s : Region} (hr : r ∈ m.regions) (hs : s ∈ m.regions)
    {a length : Nat} (hpos : 0 < length) (hra : r.Holds a length) (hsa : s.Holds a length) :
    r = s := by
  have hsymm : Std.Symm Region.Apart := ⟨fun r s h a hboth => h a hboth.symm⟩
  by_contra hne
  exact hm.forall hr hs hne a ⟨hra.byte hpos, hsa.byte hpos⟩

theorem byte?_clear (m : Memory) (a : Nat) : m.clear.byte? a = (m.byte? a).map fun _ => 0 := by
  obtain ⟨regions⟩ := m
  unfold clear byte?
  dsimp only
  induction regions with
  | nil => rfl
  | cons r rs ih =>
    rw [List.map_cons, List.findSome?_cons, List.findSome?_cons, ih, r.byte?_clear]
    cases r.byte? a with
    | none => rfl
    | some b => rfl

section Alter

variable {addr : Word} {length : Nat}

/-- The first region that has a whole range, between those before and after it. -/
structure Answers (m : Memory) (addr : Word) (length : Nat) (before : List Region) (r : Region)
    (after : List Region) : Prop where
  regions : m.regions = before ++ r :: after
  holds : r.Holds addr.toNat length
  first : ∀ s ∈ before, ¬s.Holds addr.toNat length

theorem exists_answers (h : m.Inside addr.toNat length) :
    ∃ before r after, m.Answers addr length before r after := by
  obtain ⟨s, hs, hholds⟩ := h
  cases hfind : m.regions.find? (·.contains addr length) with
  | none =>
    rw [List.find?_eq_none] at hfind
    exact absurd (Region.contains_iff_holds.mpr hholds) (hfind s hs)
  | some r =>
    obtain ⟨hr, before, after, hsplit, hbefore⟩ := List.find?_eq_some_iff_append.mp hfind
    refine ⟨before, r, after, hsplit, Region.contains_iff_holds.mp hr, ?_⟩
    intro s hs
    have hno := hbefore s hs
    rwa [Bool.not_eq_true', ← Bool.not_eq_true, Region.contains_iff_holds] at hno

namespace Answers

variable {before after : List Region} {r : Region}

theorem mem (h : m.Answers addr length before r after) : r ∈ m.regions := by
  rw [h.regions]
  exact List.mem_append_right _ (.head _)

theorem not_contains (h : m.Answers addr length before r after) :
    ∀ s ∈ before, (!s.contains addr length) = true := by
  intro s hs
  rw [Bool.not_eq_true', ← Bool.not_eq_true, Region.contains_iff_holds]
  exact h.first s hs

theorem find?_eq (h : m.Answers addr length before r after) : m.find? addr length = some r :=
  List.find?_eq_some_iff_append.mpr
    ⟨Region.contains_iff_holds.mpr h.holds, before, after, h.regions, h.not_contains⟩

theorem alter_eq (h : m.Answers addr length before r after) (f : Region → Region) :
    alter addr length f m = .ok () ⟨before ++ f r :: after⟩ := by
  have hcontains := Region.contains_iff_holds.mpr h.holds
  rw [alter, if_pos (List.any_eq_true.mpr ⟨r, h.mem, hcontains⟩), h.regions,
    alterFirst_append h.not_contains hcontains]

end Answers

theorem find?_of_not_inside (h : ¬m.Inside addr.toNat length) : m.find? addr length = none := by
  apply List.find?_eq_none.mpr
  intro r hr hcontains
  exact h ⟨r, hr, Region.contains_iff_holds.mp hcontains⟩

theorem alter_of_not_inside {f : Region → Region} (h : ¬m.Inside addr.toNat length) :
    alter addr length f m = .error (.unmapped addr) m := by
  apply if_neg
  intro hany
  obtain ⟨r, hr, hcontains⟩ := List.any_eq_true.mp hany
  exact h ⟨r, hr, Region.contains_iff_holds.mp hcontains⟩

end Alter

section Layout

theorem inside_clear {a length : Nat} : m.clear.Inside a length ↔ m.Inside a length := by
  simp only [Inside, clear, List.mem_map, exists_exists_and_eq_and]
  rfl

theorem writable_clear {a length : Nat} : m.clear.Writable a length ↔ m.Writable a length := by
  simp only [Writable, clear, List.mem_map, exists_exists_and_eq_and]
  rfl

theorem disjoint_clear : m.clear.Disjoint ↔ m.Disjoint := by
  unfold Disjoint clear
  rw [List.pairwise_map]
  rfl

theorem Writable.inside {a length : Nat} (h : m.Writable a length) : m.Inside a length := by
  obtain ⟨r, hr, hholds, _⟩ := h
  exact ⟨r, hr, hholds⟩

end Layout

section Bytes

variable {addr : Word} {bytes : List Byte}

theorem byte?_alter (hm : m.Disjoint) {f : Region → Region} (hclear : ∀ r, (f r).clear = r.clear)
    (h : m.Inside addr.toNat bytes.length)
    (hf : ∀ r ∈ m.regions, r.Holds addr.toNat bytes.length →
      ∀ a, (f r).byte? a = (byteFrom addr.toNat bytes a).or (r.byte? a)) :
    ∃ m', alter addr bytes.length f m = .ok () m' ∧ m'.clear = m.clear ∧
      ∀ a, m'.byte? a = (byteFrom addr.toNat bytes a).or (m.byte? a) := by
  obtain ⟨before, r, after, hanswers⟩ := exists_answers h
  have hsplit := hanswers.regions
  have hholds := hanswers.holds
  refine ⟨_, hanswers.alter_eq f, ?_, ?_⟩
  · rw [clear, clear, hsplit, List.map_append, List.map_append, List.map_cons, List.map_cons,
      hclear]
  · intro a
    rw [Disjoint, hsplit] at hm
    rw [byte?, byte?, hsplit]
    apply findSome?_replace hm (hf r hanswers.mem hholds a)
    intro hsome
    obtain ⟨hlow, hhigh⟩ := byteFrom_isSome.mp hsome
    have hbyte := hholds.byte (i := a - addr.toNat) (by omega)
    rwa [Nat.add_sub_cancel' hlow] at hbyte

theorem byte?_load (hm : m.Disjoint) (h : m.Inside addr.toNat bytes.length) :
    ∃ m', alter addr bytes.length (·.program addr bytes) m = .ok () m' ∧ m'.clear = m.clear ∧
      ∀ a, m'.byte? a = (byteFrom addr.toNat bytes a).or (m.byte? a) := by
  apply byte?_alter (f := (·.program addr bytes)) hm (fun _ => rfl) h
  intro r _ hholds a
  exact Region.byte?_program hholds a

theorem byte?_store (hm : m.Disjoint) (h : m.Writable addr.toNat bytes.length) :
    ∃ m', alter addr bytes.length (·.store addr bytes) m = .ok () m' ∧ m'.clear = m.clear ∧
      ∀ a, m'.byte? a = (byteFrom addr.toNat bytes a).or (m.byte? a) := by
  apply byte?_alter hm (fun r => r.clear_store addr bytes) h.inside
  intro r hr hholds a
  cases hro : r.readOnly with
  | false =>
    rw [Region.store, hro]
    exact Region.byte?_program hholds a
  | true =>
    -- The range has a writable region too, which is this one unless the range is empty.
    obtain ⟨s, hs, hsholds, hwritable⟩ := h
    cases bytes with
    | nil => rw [Region.store_of_readOnly hro, byteFrom_nil, Option.none_or]
    | cons b bs =>
      rw [← eq_of_holds hm hr hs (Nat.succ_pos _) hholds hsholds, hro] at hwritable
      cases hwritable

theorem store_of_not_writable (h : m.Inside addr.toNat bytes.length)
    (hw : ¬m.Writable addr.toNat bytes.length) :
    alter addr bytes.length (·.store addr bytes) m = .ok () m := by
  obtain ⟨before, r, after, hanswers⟩ := exists_answers h
  have hro : r.readOnly = true := by
    by_contra hro
    exact hw ⟨r, hanswers.mem, hanswers.holds, Bool.eq_false_iff.mpr hro⟩
  rw [hanswers.alter_eq, Region.store_of_readOnly hro, ← hanswers.regions]

end Bytes

inductive Access
  | read (w : Width) (addr : Word)
  | write (w : Width) (addr : Word) (v : BitVec w.bits)
  | writeBytes (addr : Word) (bytes : List Byte)
  | load (addr : Word) (bytes : List Byte)

namespace Access

def addr : Access → Word
  | read _ addr => addr
  | write _ addr _ => addr
  | writeBytes addr _ => addr
  | load addr _ => addr

def length : Access → Nat
  | read w _ => w.bytes
  | write w _ _ => w.bytes
  | writeBytes _ bytes => bytes.length
  | load _ bytes => bytes.length

def Answer : Access → Type
  | read w _ => BitVec w.bits
  | _ => Unit

def perform : (c : Access) → EStateM BusError Memory c.Answer
  | read w addr => Bus.read w addr
  | write w addr v => Bus.write w addr v
  | writeBytes addr bytes => Bus.writeBytes addr bytes
  | load addr bytes => Bus.load addr bytes

def bytes : Access → List Byte
  | read _ _ => []
  | write w _ v => (List.range w.bytes).map fun i => v.extractLsb' (8 * i) 8
  | writeBytes _ bytes => bytes
  | load _ bytes => bytes

/-- Whether an access is let into protected regions. -/
def programs : Access → Bool
  | load _ _ => true
  | _ => false

/-- An access that can change its range: protection keeps all but a load out. -/
def Lands (m : Memory) (c : Access) : Prop :=
  if c.programs then m.Inside c.addr.toNat c.length else m.Writable c.addr.toNat c.length

instance (m : Memory) (c : Access) : Decidable (c.Lands m) :=
  inferInstanceAs (Decidable (if c.programs then m.Inside c.addr.toNat c.length else
    m.Writable c.addr.toNat c.length))

def puts (m : Memory) (c : Access) (a : Nat) : Option Byte :=
  if c.Lands m then byteFrom c.addr.toNat c.bytes a else none

end Access

inductive Call
  | access (c : Access)
  | clear

def call (m : Memory) : Call → Memory
  | .access c => endState (c.perform m)
  | .clear => Bus.clear m

def after (m : Memory) (calls : List Call) : Memory :=
  calls.foldl call m

/-- What an address has after calls, the latest first: the byte that was put there last, or zero
where memory has been cleared since, or the byte that was there at the start. -/
def latest (m : Memory) (a : Nat) : List Call → Option Byte
  | [] => m.byte? a
  | .clear :: _ => (m.byte? a).map fun _ => 0
  | .access c :: earlier => (c.puts m a).or (m.latest a earlier)

structure Done (m : Memory) (c : Access) (m' : Memory) : Prop where
  layout : m'.clear = m.clear
  byte (a : Nat) : m'.byte? a = (c.puts m a).or (m.byte? a)

namespace Access

variable {c : Access}

theorem puts_of_not_lands (h : ¬c.Lands m) (a : Nat) : c.puts m a = none :=
  if_neg h

theorem puts_of_lands (h : c.Lands m) (a : Nat) :
    c.puts m a = byteFrom c.addr.toNat c.bytes a :=
  if_pos h

theorem done_of_not_lands (h : ¬c.Lands m) : m.Done c m := by
  constructor
  · rfl
  · intro a
    rw [puts_of_not_lands h, Option.none_or]

theorem Lands.inside (h : c.Lands m) : m.Inside c.addr.toNat c.length := by
  unfold Lands at h
  split at h
  · exact h
  · exact h.inside

theorem length_bytes_le (c : Access) : c.bytes.length ≤ c.length := by
  cases c with
  | read w addr => exact Nat.zero_le _
  | write w addr v => rw [bytes, List.length_map, List.length_range, length]
  | writeBytes addr bytes => exact Nat.le_refl _
  | load addr bytes => exact Nat.le_refl _

theorem puts_outside {a : Nat} (ha : a < c.addr.toNat ∨ c.addr.toNat + c.length ≤ a) :
    c.puts m a = none := by
  by_cases h : c.Lands m
  · rw [puts_of_lands h, ← Option.not_isSome_iff_eq_none, byteFrom_isSome]
    have hle := c.length_bytes_le
    omega
  · exact puts_of_not_lands h a

theorem read_inside {w : Width} {addr : Word} (hm : m.Disjoint) (h : m.Inside addr.toNat w.bytes) :
    ∃ v, Memory.read w addr m = .ok v m ∧
      ∀ i < w.bytes, m.byte? (addr.toNat + i) = some (v.extractLsb' (8 * i) 8) := by
  obtain ⟨_, r, _, hanswers⟩ := exists_answers h
  have hlen : (r.fetch addr w.bytes).length = w.bytes := by
    rw [Region.fetch, List.length_map, List.length_range']
  refine ⟨w.ofBytes (r.fetch addr w.bytes), ?_, ?_⟩
  · rw [Memory.read, hanswers.find?_eq]
  · intro i hi
    rw [byte?_of_mem hm hanswers.mem (hanswers.holds.byte hi),
      ← Region.getElem?_fetch hanswers.holds hi, ← w.getElem?_toBytes hi, w.toBytes_ofBytes hlen]

theorem perform_write (w : Width) (addr : Word) (v : BitVec w.bits) :
    Memory.write w addr v =
      alter addr (w.toBytes v).length (·.store addr (w.toBytes v)) := by
  rw [Memory.write, w.length_toBytes]

theorem perform_lands (hm : m.Disjoint) (h : c.Lands m) :
    ∃ v m', c.perform m = .ok v m' ∧ m'.clear = m.clear ∧
      ∀ a, m'.byte? a = (byteFrom c.addr.toNat c.bytes a).or (m.byte? a) := by
  cases c with
  | read w addr =>
    obtain ⟨v, hread, _⟩ := read_inside hm (Writable.inside h)
    refine ⟨v, m, hread, rfl, ?_⟩
    intro a
    rw [bytes, byteFrom_nil, Option.none_or]
  | write w addr v =>
    have hwritable : m.Writable addr.toNat (w.toBytes v).length := by
      rw [w.length_toBytes]
      exact h
    obtain ⟨m', hok, hlayout, hbyte⟩ := byte?_store hm hwritable
    refine ⟨(), m', (congrFun (perform_write w addr v) m).trans hok, hlayout, ?_⟩
    rw [bytes, ← w.toBytes_eq_map]
    exact hbyte
  | writeBytes addr bytes =>
    obtain ⟨m', hok, hdone⟩ := byte?_store hm h
    exact ⟨(), m', hok, hdone⟩
  | load addr bytes =>
    obtain ⟨m', hok, hdone⟩ := byte?_load hm h
    exact ⟨(), m', hok, hdone⟩

/-- Protection keeps the rest out without refusing it. -/
theorem perform_not_lands (hm : m.Disjoint) (h : m.Inside c.addr.toNat c.length)
    (hc : ¬c.Lands m) : ∃ v, c.perform m = .ok v m := by
  cases c with
  | read w addr =>
    obtain ⟨v, hread, _⟩ := read_inside hm h
    exact ⟨v, hread⟩
  | write w addr v =>
    refine ⟨(), (congrFun (perform_write w addr v) m).trans ?_⟩
    apply store_of_not_writable
    · rw [w.length_toBytes]
      exact h
    · rw [w.length_toBytes]
      exact hc
  | writeBytes addr bytes => exact ⟨(), store_of_not_writable h hc⟩
  | load addr bytes => exact absurd h hc

theorem perform_inside (hm : m.Disjoint) (h : m.Inside c.addr.toNat c.length) :
    ∃ v m', c.perform m = .ok v m' ∧ m.Done c m' := by
  by_cases hc : c.Lands m
  · obtain ⟨v, m', hok, hlayout, hbyte⟩ := perform_lands hm hc
    refine ⟨v, m', hok, hlayout, ?_⟩
    intro a
    rw [hbyte, puts_of_lands hc]
  · obtain ⟨v, hok⟩ := perform_not_lands hm h hc
    exact ⟨v, m, hok, done_of_not_lands hc⟩

theorem perform_outside (h : ¬m.Inside c.addr.toNat c.length) :
    c.perform m = .error (.unmapped c.addr) m := by
  cases c with
  | read w addr =>
    have hnone : m.find? addr w.bytes = none := find?_of_not_inside h
    show Memory.read w addr m = _
    rw [Memory.read, hnone]
    rfl
  | write w addr v => exact alter_of_not_inside h
  | writeBytes addr bytes => exact alter_of_not_inside h
  | load addr bytes => exact alter_of_not_inside h

theorem perform_done (hm : m.Disjoint) (c : Access) : m.Done c (endState (c.perform m)) := by
  by_cases h : m.Inside c.addr.toNat c.length
  · obtain ⟨v, m', hok, hdone⟩ := perform_inside hm h
    rw [hok]
    exact hdone
  · rw [perform_outside h]
    exact done_of_not_lands fun hlands => h hlands.inside

theorem not_lands_of_readOnly (hm : m.Disjoint) {r : Region} (hr : r ∈ m.regions)
    (hholds : r.Holds c.addr.toNat c.length) (hpos : 0 < c.length) (hro : r.readOnly = true)
    (hc : c.programs = false) : ¬c.Lands m := by
  have hwritable : ¬m.Writable c.addr.toNat c.length := by
    intro h
    obtain ⟨s, hs, hsholds, hwritable⟩ := h
    rw [← eq_of_holds hm hr hs hpos hholds hsholds, hro] at hwritable
    cases hwritable
  rwa [Lands, hc]

theorem lands_congr (h : m'.clear = m.clear) : c.Lands m' ↔ c.Lands m := by
  rw [Lands, ← inside_clear, ← writable_clear, h, inside_clear, writable_clear, Lands]

theorem puts_congr (h : m'.clear = m.clear) (a : Nat) : c.puts m' a = c.puts m a :=
  if_congr (lands_congr h) rfl rfl

end Access

theorem after_append (m : Memory) (calls : List Call) (call : Call) :
    m.after (calls ++ [call]) = (m.after calls).call call :=
  List.foldl_append

theorem clear_after (hm : m.Disjoint) (calls : List Call) : (m.after calls).clear = m.clear := by
  induction calls using List.reverseRecOn with
  | nil => rfl
  | append_singleton calls call ih =>
    rw [after_append]
    cases call with
    | access c =>
      have hdisjoint : (m.after calls).Disjoint := by
        rwa [← disjoint_clear, ih, disjoint_clear]
      exact (Access.perform_done hdisjoint c).layout.trans ih
    | clear => exact (clear_clear _).trans ih

theorem disjoint_after (hm : m.Disjoint) (calls : List Call) : (m.after calls).Disjoint := by
  rwa [← disjoint_clear, clear_after hm, disjoint_clear]

theorem inside_after (hm : m.Disjoint) (calls : List Call) {a length : Nat} :
    (m.after calls).Inside a length ↔ m.Inside a length := by
  rw [← inside_clear, clear_after hm, inside_clear]

theorem byte?_after (hm : m.Disjoint) (calls : List Call) (a : Nat) :
    (m.after calls).byte? a = m.latest a calls.reverse := by
  induction calls using List.reverseRecOn with
  | nil => rfl
  | append_singleton calls call ih =>
    rw [after_append, List.reverse_concat]
    have hlayout := clear_after hm calls
    cases call with
    | access c =>
      rw [latest, ← ih, ← Access.puts_congr hlayout a]
      exact (Access.perform_done (disjoint_after hm calls) c).byte a
    | clear =>
      show (m.after calls).clear.byte? a = _
      rw [hlayout, byte?_clear]
      rfl

/-- Memory that answers as one map from addresses to bytes after calls. -/
structure ByteMap (m : Memory) (calls : List Call) : Prop where
  /-- Each address has the byte that was last put there. -/
  contents (a : Nat) : (m.after calls).byte? a = m.latest a calls.reverse
  /-- The regions and their protection are those of the start. -/
  layout : (m.after calls).clear = m.clear
  accepted (c : Access) :
    (∃ v m', c.perform (m.after calls) = .ok v m') ↔ m.Inside c.addr.toNat c.length
  refused (c : Access) (h : ¬m.Inside c.addr.toNat c.length) :
    c.perform (m.after calls) = .error (.unmapped c.addr) (m.after calls)
  read (w : Width) (addr : Word) (h : m.Inside addr.toNat w.bytes) :
    ∃ v, (Access.read w addr).perform (m.after calls) = .ok v (m.after calls) ∧
      ∀ i < w.bytes, m.latest (addr.toNat + i) calls.reverse = some (v.extractLsb' (8 * i) 8)
  protection (c : Access) {r : Region} (hr : r ∈ m.regions) (hro : r.readOnly = true)
    (hholds : r.Holds c.addr.toNat c.length) (hpos : 0 < c.length) (hc : c.programs = false) :
    ∃ v, c.perform (m.after calls) = .ok v (m.after calls)
  frame (c : Access) (a : Nat) (ha : a < c.addr.toNat ∨ c.addr.toNat + c.length ≤ a) :
    (m.after (calls ++ [.access c])).byte? a = (m.after calls).byte? a

/-- Memory without overlaps is one byte map with write protection, whatever is done to it. -/
theorem after_byteMap (m : Memory) (hm : m.Disjoint) (calls : List Call) : m.ByteMap calls where
  contents := byte?_after hm calls
  layout := clear_after hm calls
  accepted c := by
    rw [← inside_after hm calls]
    constructor
    · intro hok
      obtain ⟨v, m', hok⟩ := hok
      by_contra h
      rw [Access.perform_outside h] at hok
      cases hok
    · intro h
      obtain ⟨v, m', hok, _⟩ := Access.perform_inside (disjoint_after hm calls) h
      exact ⟨v, m', hok⟩
  refused c h := by
    apply Access.perform_outside
    rwa [inside_after hm]
  read w addr h := by
    rw [← inside_after hm calls] at h
    obtain ⟨v, hread, hbytes⟩ := Access.read_inside (disjoint_after hm calls) h
    refine ⟨v, hread, ?_⟩
    intro i hi
    rw [← byte?_after hm, hbytes i hi]
  protection c r hr hro hholds hpos hc := by
    have hlands := Access.not_lands_of_readOnly hm hr hholds hpos hro hc
    rw [← Access.lands_congr (clear_after hm calls)] at hlands
    have hinside := (inside_after hm calls).mpr ⟨r, hr, hholds⟩
    exact Access.perform_not_lands (disjoint_after hm calls) hinside hlands
  frame c a ha := by
    rw [after_append]
    have hdone := Access.perform_done (disjoint_after hm calls) c
    rw [call, hdone.byte, Access.puts_outside ha, Option.none_or]

/-- A protected region next to a writable one: the load and the writes of either width show, the
write to the protected region and the one across the border do not. -/
theorem after_byteMap_adjacent :
    let m : Memory := ⟨[.zeros 0 4 true, .zeros 4 8 false]⟩
    let calls : List Call := [.access (.write .word 4 0x55555555), .clear,
      .access (.load 2 [0xAA, 0xBB]), .access (.write .word 4 0x11223344),
      .access (.write .byte 5 0x99), .access (.write .halfword 2 0x7777),
      .access (.write .halfword 3 0x6666)]
    m.Disjoint ∧ m.ByteMap calls ∧ ¬m.Inside 3 2 ∧
      (List.range 13).map (m.latest · calls.reverse) =
        [some 0, some 0, some 0xAA, some 0xBB, some 0x44, some 0x99, some 0x22, some 0x11,
          some 0, some 0, some 0, some 0, none] := by
  intro m calls
  have hm : m.Disjoint := by
    apply List.pairwise_pair.mpr
    intro a h
    obtain ⟨⟨_, hlow⟩, ⟨hhigh, _⟩⟩ := h
    exact absurd (Nat.le_trans hlow hhigh) (Nat.not_succ_le_self a)
  exact ⟨hm, after_byteMap m hm calls, by decide, by decide⟩

end Memory

end Thumb
