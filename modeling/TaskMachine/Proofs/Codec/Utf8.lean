import TaskMachine.Codec.Charset

/-!
Texts written as UTF-8. Reading takes the characters of a text back off its bytes, one after another.
-/

namespace TaskMachine

namespace Utf8

/-- A byte that goes on a character holds its six bits above the mark. -/
theorem toNat_trail (n : Nat) : (UInt8.ofNat (n % 0x40 + 0x80)).toNat = n % 0x40 + 0x80 := by
  rw [UInt8.toNat_ofNat']
  omega

/-- A continuation byte within the bounds is taken up. -/
theorem continuation_succ {n code : Nat} {low high b : UInt8} {rest : Bytes}
    (above : low.toNat ≤ b.toNat) (below : b.toNat ≤ high.toNat)
    : continuation (n + 1) low high code (b :: rest)
      = continuation n 0x80 0xBF (code * 64 + (b.toNat - 0x80)) rest := by
  rw [continuation, if_pos ⟨UInt8.le_iff_toNat_le.mpr above, UInt8.le_iff_toNat_le.mpr below⟩]

/-- The last byte of a character. -/
theorem continuation_last {code v : Nat} {rest : Bytes} {c : Char} (value : code * 64 + v % 0x40 = c.toNat)
    : continuation 1 0x80 0xBF code (UInt8.ofNat (v % 0x40 + 0x80) :: rest) = (some c, rest) := by
  have small := toNat_trail v
  rw [continuation_succ, small, continuation, Nat.add_sub_cancel, value, Char.ofNat_toNat]
  · rw [small]
    exact Nat.le_add_left _ _
  · rw [small]
    show v % 0x40 + 0x80 ≤ 0xBF
    omega

/-- A bound that depends on the leading byte, as a number. -/
theorem toNat_bound (b special narrow wide : UInt8)
    : (if b = special then narrow else wide).toNat
      = if b.toNat = special.toNat then narrow.toNat else wide.toNat := by
  by_cases same : b = special
  · simp [same]
  · have different : b.toNat ≠ special.toNat := fun equal => same (UInt8.toNat.inj equal)
    simp [same, different]

/-- The codes of characters. -/
theorem toNat_valid (c : Char) : c.toNat < 0xD800 ∨ (0xDFFF < c.toNat ∧ c.toNat < 0x110000) :=
  c.valid

/-- Reading a character takes its bytes off the front, by the number of its bytes. -/
theorem next_encode (c : Char) (rest : Bytes)
    : ∃ b tail, String.utf8EncodeChar c = b :: tail ∧ next b (tail ++ rest) = (some c, rest) := by
  have valid := toNat_valid c
  have same : c.val.toNat = c.toNat := rfl
  simp only [String.utf8EncodeChar, same]
  split
  · rename_i one
    have lead : (UInt8.ofNat c.toNat).toNat = c.toNat := by
      rw [UInt8.toNat_ofNat']
      omega
    refine ⟨_, [], rfl, ?_⟩
    rw [next, if_pos (UInt8.lt_iff_toNat_lt.mpr (by rw [lead]; show c.toNat < 0x80; omega)), lead,
      Char.ofNat_toNat]
    rfl
  split
  · rename_i one two
    have lead : (UInt8.ofNat (c.toNat / 64 % 0x20 + 0xc0)).toNat = c.toNat / 64 + 0xC0 := by
      rw [UInt8.toNat_ofNat']
      omega
    refine ⟨_, [_], rfl, ?_⟩
    simp only [next, UInt8.lt_iff_toNat_lt, lead, UInt8.reduceToNat]
    rw [if_neg (by omega), if_neg (by omega), if_pos (by omega)]
    exact continuation_last (by omega)
  split
  · rename_i one two three
    have lead : (UInt8.ofNat (c.toNat / 4096 % 0x10 + 0xe0)).toNat = c.toNat / 4096 + 0xE0 := by
      rw [UInt8.toNat_ofNat']
      omega
    refine ⟨_, [_, _], rfl, ?_⟩
    simp only [next, UInt8.lt_iff_toNat_lt, lead, UInt8.reduceToNat]
    rw [if_neg (by omega), if_neg (by omega), if_neg (by omega), if_pos (by omega)]
    have small := toNat_trail (c.toNat / 64)
    rw [List.cons_append, continuation_succ, small]
    · exact continuation_last (by omega)
    · simp only [toNat_bound, small, lead, UInt8.reduceToNat]
      split <;> omega
    · simp only [toNat_bound, small, lead, UInt8.reduceToNat]
      split <;> omega
  · rename_i one two three
    have lead : (UInt8.ofNat (c.toNat / 262144 % 0x08 + 0xf0)).toNat = c.toNat / 262144 + 0xF0 := by
      rw [UInt8.toNat_ofNat']
      omega
    refine ⟨_, [_, _, _], rfl, ?_⟩
    simp only [next, UInt8.lt_iff_toNat_lt, lead, UInt8.reduceToNat]
    rw [if_neg (by omega), if_neg (by omega), if_neg (by omega), if_neg (by omega),
      if_pos (by omega)]
    have small := toNat_trail (c.toNat / 4096)
    have small' := toNat_trail (c.toNat / 64)
    rw [List.cons_append, continuation_succ, small, List.cons_append, continuation_succ, small']
    · exact continuation_last (by omega)
    · simp only [small', UInt8.reduceToNat]
      omega
    · simp only [small', UInt8.reduceToNat]
      omega
    · simp only [toNat_bound, small, lead, UInt8.reduceToNat]
      split <;> omega
    · simp only [toNat_bound, small, lead, UInt8.reduceToNat]
      split <;> omega

/-- Reading all characters gives back those that were written, by induction on them. -/
theorem readAll_encode {fuel : Nat} {done : List (Option Char)} {cs : List Char}
    (enough : cs.length ≤ fuel)
    : readAll fuel done (cs.flatMap String.utf8EncodeChar) = (cs.map some).reverse ++ done := by
  induction cs generalizing fuel done with
  | nil => simp [readAll]
  | cons c cs ih =>
      obtain ⟨b, tail, bytes, read⟩ := next_encode c (cs.flatMap String.utf8EncodeChar)
      cases fuel with
      | zero => simp at enough
      | succ fuel =>
          rw [List.flatMap_cons, bytes, List.cons_append, readAll, read]
          simp only
          rw [ih (Nat.le_of_succ_le_succ enough)]
          simp

/-- A text is at least as long in bytes as in characters. -/
theorem length_le_encode (cs : List Char)
    : cs.length ≤ (cs.flatMap String.utf8EncodeChar).length := by
  induction cs with
  | nil => simp
  | cons c cs ih =>
      obtain ⟨b, tail, bytes, -⟩ := next_encode c []
      rw [List.flatMap_cons, List.length_append, bytes]
      simp only [List.length_cons]
      omega

theorem decode_encode (s : String) : decode (encode s) = s := by
  have read : characters (encode s) = s.toList.map some := by
    rw [characters, encode, readAll_encode (length_le_encode _)]
    simp
  rw [decode, read, List.map_map]
  have each : (fun c : Option Char => c.getD '\uFFFD') ∘ some = id := rfl
  rw [each, List.map_id, String.ofList_toList]

end Utf8

theorem Charset.decode_encode_utf8 (s : String) : utf8.decode (utf8.encode s) = s :=
  Utf8.decode_encode s

end TaskMachine
