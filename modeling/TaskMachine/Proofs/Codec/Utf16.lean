import TaskMachine.Proofs.Codec.Utf8

/-!
Texts read in units of two bytes. Encodings that are read so are not written: their texts are written in
UTF-8. No text but the empty one is read back from that as it was.
-/

namespace TaskMachine

namespace Utf16

variable {bigEndian leftOver : Bool} {a b : UInt8} {c : Char} {bytes rest : Bytes} {text : List Char}

-----------------------------------------------------------------------------------------
-- Reading from the front
-----------------------------------------------------------------------------------------

/-- The unit of two bytes. -/
def unit (bigEndian : Bool) (a b : UInt8) : Nat :=
  if bigEndian then a.toNat * 256 + b.toNat else b.toNat * 256 + a.toNat

/-- The character of a unit that starts no pair. -/
def single (unit : Nat) : Char :=
  if Encoding.isTrail unit then '\uFFFD' else Char.ofNat unit

/-- The character of a pair of units. -/
def paired (lead trail : Nat) : Char :=
  Char.ofNat (0x10000 + (lead - 0xD800) * 0x400 + (trail - 0xDC00))

/-- Bytes are read as a text, character by character. The start of a pair without its other half is
malformed; a byte that is left over is so, too, once with the start of a pair in front of it.
-/
inductive Reads (bigEndian : Bool) : Bytes → List Char → Prop
  | nil : Reads bigEndian [] []
  | leftOver (a : UInt8) : Reads bigEndian [a] ['\uFFFD']
  | alone {a b : UInt8} (lead : Encoding.isLead (unit bigEndian a b) = true)
    : Reads bigEndian [a, b] ['\uFFFD']
  | cut {a b : UInt8} (c : UInt8) (lead : Encoding.isLead (unit bigEndian a b) = true)
    : Reads bigEndian [a, b, c] ['\uFFFD']
  | pair {a b c d : UInt8} {rest : Bytes} {text : List Char}
      (lead : Encoding.isLead (unit bigEndian a b) = true)
      (trail : Encoding.isTrail (unit bigEndian c d) = true) (others : Reads bigEndian rest text)
    : Reads bigEndian (a :: b :: c :: d :: rest)
        (paired (unit bigEndian a b) (unit bigEndian c d) :: text)
  | unpaired {a b c d : UInt8} {rest : Bytes} {text : List Char}
      (lead : Encoding.isLead (unit bigEndian a b) = true)
      (other : Encoding.isTrail (unit bigEndian c d) = false)
      (others : Reads bigEndian (c :: d :: rest) text)
    : Reads bigEndian (a :: b :: c :: d :: rest) ('\uFFFD' :: text)
  | single {a b : UInt8} {rest : Bytes} {text : List Char}
      (other : Encoding.isLead (unit bigEndian a b) = false) (others : Reads bigEndian rest text)
    : Reads bigEndian (a :: b :: rest) (Utf16.single (unit bigEndian a b) :: text)

/-- The units of bytes, and whether a byte is left over. -/
def unitsOf (bigEndian : Bool) : Bytes → List Nat × Bool
  | [] => ([], false)
  | [_] => ([], true)
  | a :: b :: rest => (unit bigEndian a b :: (unitsOf bigEndian rest).1, (unitsOf bigEndian rest).2)

private theorem units_eq (bigEndian : Bool) (done : List Nat) (bytes : Bytes)
    : Encoding.units bigEndian done bytes
      = ((unitsOf bigEndian bytes).1.reverse ++ done, (unitsOf bigEndian bytes).2) := by
  fun_induction Encoding.units bigEndian done bytes with
  | case1 done => rfl
  | case2 done => rfl
  | case3 done a b rest unit ih =>
      rw [ih, unitsOf]
      simp [unit, Utf16.unit]

/-- The characters of units are read from the front, by the units that are left. -/
theorem exists_reads (bigEndian : Bool) (done : List Char) (bytes : Bytes)
    : ∃ text, Reads bigEndian bytes text
        ∧ Encoding.joinUnits (unitsOf bigEndian bytes).2 done (unitsOf bigEndian bytes).1
          = text.reverse ++ done := by
  match bytes with
  | [] => exact ⟨_, .nil, rfl⟩
  | [a] => exact ⟨_, .leftOver a, rfl⟩
  | [a, b] =>
      simp only [unitsOf, Encoding.joinUnits]
      cases lead : Encoding.isLead (unit bigEndian a b) with
      | true => exact ⟨_, .alone lead, rfl⟩
      | false => exact ⟨_, .single lead .nil, rfl⟩
  | [a, b, c] =>
      simp only [unitsOf, Encoding.joinUnits]
      cases lead : Encoding.isLead (unit bigEndian a b) with
      | true => exact ⟨_, .cut c lead, rfl⟩
      | false => exact ⟨_, .single lead (.leftOver c), rfl⟩
  | a :: b :: c :: d :: rest =>
      simp only [unitsOf, Encoding.joinUnits]
      cases lead : Encoding.isLead (unit bigEndian a b) with
      | true =>
          cases trail : Encoding.isTrail (unit bigEndian c d) with
          | true =>
              obtain ⟨text, others, joined⟩ := exists_reads bigEndian
                (paired (unit bigEndian a b) (unit bigEndian c d) :: done) rest
              refine ⟨_, .pair lead trail others, ?_⟩
              rw [List.reverse_cons, List.append_assoc]
              exact joined
          | false =>
              obtain ⟨text, others, joined⟩ := exists_reads bigEndian ('\uFFFD' :: done) (c :: d :: rest)
              refine ⟨_, .unpaired lead trail others, ?_⟩
              rw [List.reverse_cons, List.append_assoc]
              exact joined
      | false =>
          obtain ⟨text, others, joined⟩ := exists_reads bigEndian
            (single (unit bigEndian a b) :: done) (c :: d :: rest)
          refine ⟨_, .single lead others, ?_⟩
          rw [List.reverse_cons, List.append_assoc]
          exact joined
termination_by bytes.length

private theorem exists_decode (bigEndian : Bool) (bytes : Bytes)
    : ∃ text, Reads bigEndian bytes text
        ∧ (Encoding.utf16 bigEndian).decode bytes = String.ofList text := by
  obtain ⟨text, reads, joined⟩ := exists_reads bigEndian [] bytes
  refine ⟨text, reads, ?_⟩
  simp only [Encoding.decode, units_eq, List.append_nil, List.reverse_reverse, joined]

-----------------------------------------------------------------------------------------
-- Characters of units
-----------------------------------------------------------------------------------------

private theorem toNat_ofNat_char {code : Nat} (valid : code.isValidChar) : (Char.ofNat code).toNat = code := by
  rw [Char.ofNat, dif_pos valid]
  rfl

private theorem unit_cases (bigEndian : Bool) (a b : UInt8)
    : unit bigEndian a b = a.toNat * 256 + b.toNat ∨ unit bigEndian a b = b.toNat * 256 + a.toNat := by
  rw [unit]
  split
  · exact .inl rfl
  · exact .inr rfl

private theorem unit_lt (bigEndian : Bool) (a b : UInt8) : unit bigEndian a b < 0x10000 := by
  have first := a.toNat_lt
  have second := b.toNat_lt
  have value := unit_cases bigEndian a b
  omega

/-- A unit that starts no pair is its character, or malformed. -/
theorem single_cases (other : Encoding.isLead (unit bigEndian a b) = false)
    : single (unit bigEndian a b) = '\uFFFD'
      ∨ (single (unit bigEndian a b)).toNat = unit bigEndian a b := by
  have small := unit_lt bigEndian a b
  rw [single]
  split
  · exact .inl rfl
  · rename_i noTrail
    refine .inr (toNat_ofNat_char ?_)
    simp only [Encoding.isLead, Encoding.isTrail, Bool.and_eq_true, Bool.and_eq_false_iff,
      decide_eq_true_eq, decide_eq_false_iff_not] at other noTrail
    show _ < 0xD800 ∨ (0xDFFF < _ ∧ _ < 0x110000)
    omega

private theorem paired_range {lead trail : Nat} (first : Encoding.isLead lead = true)
    (second : Encoding.isTrail trail = true)
    : 0x10000 ≤ (paired lead trail).toNat := by
  simp only [Encoding.isLead, Encoding.isTrail, Bool.and_eq_true, decide_eq_true_eq] at first second
  rw [paired, toNat_ofNat_char]
  · omega
  · show _ < 0xD800 ∨ (0xDFFF < _ ∧ _ < 0x110000)
    omega

-----------------------------------------------------------------------------------------
-- Bytes of characters
-----------------------------------------------------------------------------------------

/-- Beyond ASCII, every byte of a character has its high bit set, by the number of its bytes. -/
theorem high_of_encodeChar (beyond : 0x80 ≤ c.toNat)
    : ∀ b ∈ String.utf8EncodeChar c, 0x80 ≤ b.toNat := by
  have valid := Utf8.toNat_valid c
  have same : c.val.toNat = c.toNat := rfl
  simp only [String.utf8EncodeChar, same]
  split
  · omega
  split
  · simp only [List.forall_mem_cons, List.not_mem_nil, false_imp_iff, implies_true, and_true,
      UInt8.toNat_ofNat']
    omega
  split
  · simp only [List.forall_mem_cons, List.not_mem_nil, false_imp_iff, implies_true, and_true,
      UInt8.toNat_ofNat']
    omega
  · simp only [List.forall_mem_cons, List.not_mem_nil, false_imp_iff, implies_true, and_true,
      UInt8.toNat_ofNat']
    omega

/-- An ASCII character is its byte. -/
theorem encodeChar_ascii (ascii : c.toNat < 0x80)
    : String.utf8EncodeChar c = [UInt8.ofNat c.toNat] := by
  have same : c.val.toNat = c.toNat := rfl
  simp only [String.utf8EncodeChar, same]
  rw [if_pos (by omega)]

/-- Only the character of the number zero has a zero byte. -/
theorem count_zero_encodeChar (c : Char)
    : (String.utf8EncodeChar c).count 0 = if c.toNat = 0 then 1 else 0 := by
  by_cases beyond : 0x80 ≤ c.toNat
  · rw [if_neg (by omega)]
    refine List.count_eq_zero.mpr fun zero => ?_
    have high := high_of_encodeChar beyond 0 zero
    simp at high
  · have same : UInt8.ofNat c.toNat = 0 ↔ c.toNat = 0 := by
      rw [← UInt8.toNat_inj, UInt8.toNat_ofNat', UInt8.toNat_zero]
      omega
    rw [encodeChar_ascii (by omega), List.count_singleton]
    simp only [beq_iff_eq, same]

/-- A byte that leads three or more and one that goes on are no unit that starts a pair. -/
theorem isLead_bytes (bigEndian : Bool) (long : 0xE0 ≤ a.toNat) (goesOn : b.toNat < 0xC0)
    : Encoding.isLead (unit bigEndian a b) = false := by
  have bounded := a.toNat_lt
  have value := unit_cases bigEndian a b
  simp only [Encoding.isLead, Bool.and_eq_false_iff, decide_eq_false_iff_not]
  omega

/-- The first two bytes of a longer character are no unit that starts a pair. -/
theorem isLead_encodeChar (bigEndian : Bool) (long : 0x800 ≤ c.toNat)
    : ∃ a b tail, String.utf8EncodeChar c = a :: b :: tail
        ∧ Encoding.isLead (unit bigEndian a b) = false := by
  have valid := Utf8.toNat_valid c
  have same : c.val.toNat = c.toNat := rfl
  simp only [String.utf8EncodeChar, same]
  rw [if_neg (by omega), if_neg (by omega)]
  split
  · have lead : (UInt8.ofNat (c.toNat / 4096 % 0x10 + 0xe0)).toNat = c.toNat / 4096 % 0x10 + 0xe0 := by
      rw [UInt8.toNat_ofNat']
      omega
    have trail := Utf8.toNat_trail (c.toNat / 64)
    exact ⟨_, _, _, rfl, isLead_bytes bigEndian (by omega) (by omega)⟩
  · have lead : (UInt8.ofNat (c.toNat / 262144 % 0x08 + 0xf0)).toNat
        = c.toNat / 262144 % 0x08 + 0xf0 := by
      rw [UInt8.toNat_ofNat']
      omega
    have trail := Utf8.toNat_trail (c.toNat / 4096)
    exact ⟨_, _, _, rfl, isLead_bytes bigEndian (by omega) (by omega)⟩

private theorem length_encodeChar_three (long : 0x800 ≤ c.toNat) : 3 ≤ (String.utf8EncodeChar c).length := by
  have same : c.val.toNat = c.toNat := rfl
  simp only [String.utf8EncodeChar, same]
  rw [if_neg (by omega), if_neg (by omega)]
  split <;> simp

private theorem length_encodeChar_four (long : 0x10000 ≤ c.toNat)
    : (String.utf8EncodeChar c).length = 4 := by
  have same : c.val.toNat = c.toNat := rfl
  simp only [String.utf8EncodeChar, same]
  rw [if_neg (by omega), if_neg (by omega), if_neg (by omega)]
  rfl

-----------------------------------------------------------------------------------------
-- Reading what was written
-----------------------------------------------------------------------------------------

/-- How many zero bytes are in the units of ASCII characters: two for that of the number zero. -/
def zeros (cs : List Char) : Nat :=
  cs.countP (·.toNat < 0x80) + cs.countP (·.toNat = 0)

private theorem zeros_cons (c : Char) (cs : List Char) : zeros (c :: cs) = zeros [c] + zeros cs := by
  simp only [zeros, List.countP_cons, List.countP_nil]
  omega

private theorem zeros_eq_zero (beyond : 0x80 ≤ c.toNat) : zeros [c] = 0 := by
  simp only [zeros, List.countP_cons, List.countP_nil, decide_eq_true_eq]
  rw [if_neg (by omega), if_neg (by omega)]

private theorem zeros_single (other : Encoding.isLead (unit bigEndian a b) = false)
    : zeros [single (unit bigEndian a b)] ≤ [a, b].count 0 := by
  rcases single_cases other with malformed | same
  · rw [malformed]
    exact Nat.zero_le _
  · have first : a = 0 ↔ a.toNat = 0 := by rw [← UInt8.toNat_inj, UInt8.toNat_zero]
    have second : b = 0 ↔ b.toNat = 0 := by rw [← UInt8.toNat_inj, UInt8.toNat_zero]
    have value := unit_cases bigEndian a b
    simp only [zeros, same, List.countP_cons, List.countP_nil, List.count_cons, List.count_nil,
      beq_iff_eq, decide_eq_true_eq, first, second]
    repeat' split
    all_goals omega

/-- A unit of an ASCII character has a zero byte, and that of the number zero has two of them. -/
theorem zeros_of_reads (reads : Reads bigEndian bytes text) : zeros text ≤ bytes.count 0 := by
  have malformed : zeros ['\uFFFD'] = 0 := zeros_eq_zero (by decide)
  induction reads with
  | nil => exact Nat.le_refl _
  | leftOver a => exact Nat.zero_le _
  | alone lead => exact Nat.zero_le _
  | cut c lead => exact Nat.zero_le _
  | @pair a b c d rest text lead trail others ih =>
      have range := paired_range lead trail
      rw [zeros_cons, zeros_eq_zero (by omega)]
      simp only [List.count_cons]
      omega
  | unpaired lead other others ih =>
      rw [zeros_cons, malformed]
      simp only [List.count_cons] at ih ⊢
      omega
  | @single a b rest text other others ih =>
      have first := zeros_single other
      rw [zeros_cons]
      simp only [List.count_cons, List.count_nil] at first ⊢
      omega

/-- The zero bytes that are written are those of the number zero. -/
theorem count_zero_encode (cs : List Char)
    : (cs.flatMap String.utf8EncodeChar).count 0 = cs.countP (·.toNat = 0) := by
  induction cs with
  | nil => rfl
  | cons c cs ih =>
      rw [List.flatMap_cons, List.count_append, List.countP_cons, ih, count_zero_encodeChar,
        Nat.add_comm]
      simp only [decide_eq_true_eq]

/-- A unit of two bytes beyond ASCII is read as a character of three bytes. -/
theorem long_of_single (other : Encoding.isLead (unit bigEndian a b) = false)
    (high : 0x80 ≤ a.toNat) (high' : 0x80 ≤ b.toNat)
    : 0x800 ≤ (single (unit bigEndian a b)).toNat := by
  rcases single_cases other with malformed | same
  · rw [malformed]
    decide
  · have value := unit_cases bigEndian a b
    omega

/-- Where no byte is ASCII, a unit is read as a character that takes at least as many bytes. -/
theorem length_of_reads (reads : Reads bigEndian bytes text) (high : ∀ b ∈ bytes, 0x80 ≤ b.toNat)
    : bytes.length ≤ (text.flatMap String.utf8EncodeChar).length := by
  induction reads with
  | nil => exact Nat.le_refl _
  | leftOver a => exact Nat.le_add_left 1 2
  | alone lead => exact Nat.le_succ 2
  | cut c lead => exact Nat.le_refl 3
  | @pair a b c d rest text lead trail others ih =>
      have four := length_encodeChar_four (paired_range lead trail)
      have rest := ih fun b found => high b (by simp [found])
      rw [List.flatMap_cons, List.length_append, four]
      simp only [List.length_cons]
      omega
  | @unpaired a b c d rest text lead other others ih =>
      have three : (String.utf8EncodeChar '\uFFFD').length = 3 := rfl
      have rest := ih fun b found => high b (List.mem_cons_of_mem _ (List.mem_cons_of_mem _ found))
      rw [List.flatMap_cons, List.length_append, three]
      simp only [List.length_cons] at rest ⊢
      omega
  | @single a b rest text other others ih =>
      have three := length_encodeChar_three (long_of_single other (high a (by simp)) (high b (by simp)))
      have rest := ih fun b found => high b (List.mem_cons_of_mem _ (List.mem_cons_of_mem _ found))
      rw [List.flatMap_cons, List.length_append]
      simp only [List.length_cons]
      omega

/-- Where no byte is ASCII, a text that is read starts with a longer character, from a unit that starts a
pair, or takes more bytes than it was read from.
-/
theorem lead_or_shorter (reads : Reads bigEndian bytes text) (high : ∀ b ∈ bytes, 0x80 ≤ b.toNat)
    : text = []
      ∨ (∃ a b rest c cs, bytes = a :: b :: rest ∧ Encoding.isLead (unit bigEndian a b) = true
          ∧ text = c :: cs ∧ 0x800 ≤ c.toNat)
      ∨ bytes.length < (text.flatMap String.utf8EncodeChar).length := by
  have malformed : 0x800 ≤ ('\uFFFD' : Char).toNat := by decide
  cases reads with
  | nil => exact .inl rfl
  | leftOver a => exact .inr (.inr (Nat.lt_add_left 1 Nat.one_lt_two))
  | alone lead => exact .inr (.inl ⟨_, _, _, _, _, rfl, lead, rfl, malformed⟩)
  | cut c lead => exact .inr (.inl ⟨_, _, _, _, _, rfl, lead, rfl, malformed⟩)
  | pair lead trail others =>
      have range := paired_range lead trail
      exact .inr (.inl ⟨_, _, _, _, _, rfl, lead, rfl, by omega⟩)
  | unpaired lead other others => exact .inr (.inl ⟨_, _, _, _, _, rfl, lead, rfl, malformed⟩)
  | @single a b rest text other others =>
      have three := length_encodeChar_three (long_of_single other (high a (by simp)) (high b (by simp)))
      have fewer := length_of_reads others fun b found =>
        high b (List.mem_cons_of_mem _ (List.mem_cons_of_mem _ found))
      refine .inr (.inr ?_)
      rw [List.flatMap_cons, List.length_append]
      simp only [List.length_cons]
      omega

/-- Bytes that were written for characters, and read as those, belong to no ASCII character: there are too
few zero bytes.
-/
theorem beyond_of_reads {cs : List Char} (reads : Reads bigEndian (cs.flatMap String.utf8EncodeChar) cs)
    : ∀ c ∈ cs, 0x80 ≤ c.toNat := by
  have enough := zeros_of_reads reads
  rw [zeros, count_zero_encode] at enough
  have none : cs.countP (·.toNat < 0x80) = 0 := by omega
  intro c found
  have beyond := List.countP_eq_zero.mp none c found
  simpa using beyond

/-- No text but the empty one is read back from its characters' bytes. -/
theorem eq_nil_of_reads {cs : List Char} (reads : Reads bigEndian (cs.flatMap String.utf8EncodeChar) cs)
    : cs = [] := by
  have beyond := beyond_of_reads reads
  have high : ∀ b ∈ cs.flatMap String.utf8EncodeChar, 0x80 ≤ b.toNat := by
    intro b found
    obtain ⟨c, member, within⟩ := List.mem_flatMap.mp found
    exact high_of_encodeChar (beyond c member) b within
  obtain none | ⟨a, b, rest, c, others, bytes, lead, rfl, long⟩ | shorter := lead_or_shorter reads high
  · exact none
  · obtain ⟨a', b', tail, written, noLead⟩ := isLead_encodeChar bigEndian long
    rw [List.flatMap_cons, written] at bytes
    cases bytes
    rw [noLead] at lead
    cases lead
  · exact absurd shorter (Nat.lt_irrefl _)

/-- Only the empty text is read back as it was written. -/
theorem decode_encode_iff (bigEndian : Bool) (s : String)
    : (Encoding.utf16 bigEndian).decode ((Encoding.utf16 bigEndian).encode s) = s ↔ s = "" := by
  constructor
  · intro same
    obtain ⟨text, reads, read⟩ := exists_decode bigEndian (s.toList.flatMap String.utf8EncodeChar)
    have text_eq : text = s.toList := by
      rw [← String.toList_ofList (l := text), ← read]
      exact congrArg String.toList same
    rw [text_eq] at reads
    rw [← String.ofList_toList (s := s), eq_nil_of_reads reads]
  · rintro rfl
    rfl

end Utf16
end TaskMachine
