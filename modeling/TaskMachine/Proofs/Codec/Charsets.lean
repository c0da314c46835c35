import TaskMachine.Proofs.Codec.Storing
import TaskMachine.Proofs.Codec.Utf16

/-!
Texts that survive the character set of a label. An encoding that is written as it is read gives back
every text in its characters. Those for reading only are written in UTF-8, and keep next to nothing.
-/

namespace TaskMachine

-----------------------------------------------------------------------------------------
-- Encodings
-----------------------------------------------------------------------------------------

namespace Encoding

/-- A character has a form in an encoding: a byte of its own, where a character takes one. -/
def Has : Encoding → Char → Prop
  | singleByte _ upper, c => c.toNat < 128 ∨ c.toNat ∈ upper
  | utf8, _ | utf16 _, _ | replacement, _ => True

instance (e : Encoding) (c : Char) : Decidable (e.Has c) :=
  match e with
  | singleByte _ upper => inferInstanceAs (Decidable (c.toNat < 128 ∨ c.toNat ∈ upper))
  | utf8 | utf16 _ | replacement => inferInstanceAs (Decidable True)

/-- The texts that an encoding keeps, of those in its characters. -/
def Keeps : Encoding → String → Prop
  | utf8, _ | singleByte _ _, _ => True
  | utf16 _, s => s = ""
  | replacement, s => s = "" ∨ s = "\uFFFD"

/-- A table of an upper half has no more than its 128 bytes. -/
def Fits : Encoding → Prop
  | singleByte _ upper => upper.length ≤ 128
  | utf8 | utf16 _ | replacement => True

instance (e : Encoding) : Decidable e.Fits :=
  match e with
  | singleByte _ upper => inferInstanceAs (Decidable (upper.length ≤ 128))
  | utf8 | utf16 _ | replacement => inferInstanceAs (Decidable True)

/-- A character with a byte of its own is read back from it, by the half that the byte is in. -/
theorem charOf_singleByteOf {upper : List Nat} {c : Char} (fits : upper.length ≤ 128)
    (has : c.toNat < 128 ∨ c.toNat ∈ upper)
    : (singleByteOf upper c).map (charOf upper) = [c] := by
  by_cases ascii : c.toNat < 128
  · have value : (UInt8.ofNat c.toNat).toNat = c.toNat := by
      rw [UInt8.toNat_ofNat']
      omega
    have low : UInt8.ofNat c.toNat < 128 := UInt8.lt_iff_toNat_lt.mpr (by rwa [value])
    rw [singleByteOf, if_pos ascii, List.map_singleton, charOf, if_pos low, value, Char.ofNat_toNat]
  · rw [singleByteOf, if_neg ascii]
    cases found : upper.findIdx? (· == c.toNat) with
    | none =>
        have missing := List.findIdx?_eq_none_iff.mp found c.toNat (has.resolve_left ascii)
        simp at missing
    | some i =>
        obtain ⟨bound, same, -⟩ := List.findIdx?_eq_some_iff_getElem.mp found
        have value : (UInt8.ofNat (128 + i)).toNat = 128 + i := by
          rw [UInt8.toNat_ofNat']
          omega
        have high : ¬ UInt8.ofNat (128 + i) < 128 := by
          rw [UInt8.lt_iff_toNat_lt, value]
          exact Nat.not_lt.mpr (Nat.le_add_right 128 i)
        simp only [List.map_singleton, charOf, if_neg high, value, Nat.add_sub_cancel_left,
          List.getElem?_eq_getElem bound, beq_iff_eq.mp same, Char.ofNat_toNat]

/-- Characters with bytes of their own are read back, by induction on them. -/
theorem map_charOf_singleByteOf {upper : List Nat} {cs : List Char} (fits : upper.length ≤ 128)
    (has : ∀ c ∈ cs, c.toNat < 128 ∨ c.toNat ∈ upper)
    : (cs.flatMap (singleByteOf upper)).map (charOf upper) = cs := by
  induction cs with
  | nil => rfl
  | cons c cs ih =>
      have first := charOf_singleByteOf fits (has c List.mem_cons_self)
      have others := ih fun d found => has d (List.mem_cons_of_mem _ found)
      rw [List.flatMap_cons, List.map_append, first, others]
      rfl

/-- Each byte is read on its own, and none is the byte of two characters. -/
theorem decode_encode_singleByte {name : String} {upper : List Nat} {s : String}
    (fits : upper.length ≤ 128) (inside : ∀ c ∈ s.toList, (singleByte name upper).Has c)
    : (singleByte name upper).decode ((singleByte name upper).encode s) = s := by
  rw [decode, encode, map_charOf_singleByteOf fits inside, String.ofList_toList]

/-- Any bytes are read as one and the same character. -/
theorem decode_encode_replacement (s : String)
    : replacement.decode (replacement.encode s) = s ↔ s = "" ∨ s = "\uFFFD" := by
  rw [decode]
  split
  · rename_i none
    have bytes : s.toList.flatMap String.utf8EncodeChar = [] := List.isEmpty_iff.mp none
    have length := Utf8.length_le_encode s.toList
    rw [bytes] at length
    have empty : s = "" :=
      String.toList_eq_nil_iff.mp (List.length_eq_zero_iff.mp (Nat.le_zero.mp length))
    exact iff_of_true empty.symm (.inl empty)
  · rename_i some
    constructor
    · intro same
      exact .inr same.symm
    · rintro (rfl | rfl)
      · exact absurd rfl some
      · rfl

/-- What an encoding keeps, by the kinds of encodings. -/
theorem decode_encode_iff {e : Encoding} {s : String} (fits : e.Fits) (inside : ∀ c ∈ s.toList, e.Has c)
    : e.decode (e.encode s) = s ↔ e.Keeps s := by
  cases e with
  | utf8 => exact iff_of_true (Utf8.decode_encode s) trivial
  | singleByte name upper => exact iff_of_true (decode_encode_singleByte fits inside) trivial
  | utf16 bigEndian => exact Utf16.decode_encode_iff bigEndian s
  | replacement => exact decode_encode_replacement s

end Encoding

-----------------------------------------------------------------------------------------
-- Labels
-----------------------------------------------------------------------------------------

namespace Charset

private theorem fits_of_listed {entry : Encoding × List String} (listed : entry ∈ registered)
    : entry.1.Fits := by
  have all : ∀ entry ∈ registered, entry.1.Fits := by decide +kernel
  exact all entry listed

/-- No label is registered twice. -/
theorem encodingOf?_listed {entry : Encoding × List String} {key : String}
    (listed : entry ∈ registered) (named : key ∈ entry.2)
    : encodingOf? key = some entry.1 := by
  have all : ∀ entry ∈ registered, ∀ key ∈ entry.2, encodingOf? key = some entry.1 := by
    decide +kernel
  exact all entry listed key named

/-- A registered label names the character set of its encoding, whatever its case and the white space
around it.
-/
theorem ofLabel_listed {entry : Encoding × List String} {label : String} (listed : entry ∈ registered)
    (named : (trimmed label).toLower ∈ entry.2)
    : ∃ charset, ofLabel label = .ok charset ∧ charset.encoding = entry.1 := by
  have found := encodingOf?_listed listed named
  simp only [ofLabel]
  split
  · rename_i short
    have plain : encodingOf? (trimmed label).toLower = some .utf8 := by
      rcases short with short | short
      all_goals
        rw [short]
        decide +kernel
    exact ⟨utf8, rfl, Option.some.inj (plain.symm.trans found)⟩
  · rw [found]
    exact ⟨_, rfl, rfl⟩

/-- An accepted label is registered for a character set with a table, or for one without. -/
theorem listed_of_ofLabel {label : String} {charset : Charset} (accepted : ofLabel label = .ok charset)
    (tabulated : ∀ entry ∈ unsupported, (trimmed label).toLower ∉ entry.2)
    : ∃ entry ∈ registered, charset.encoding = entry.1 := by
  simp only [ofLabel] at accepted
  split at accepted
  · cases accepted
    exact ⟨_, List.mem_cons_self, rfl⟩
  · cases found : registered.find? fun entry => entry.2.contains (trimmed label).toLower with
    | some entry =>
        simp only [encodingOf?, found] at accepted
        cases accepted
        exact ⟨entry, List.mem_of_find?_eq_some found, rfl⟩
    | none =>
        have outside : (unsupported.find? fun entry => entry.2.contains (trimmed label).toLower) = none :=
          List.find?_eq_none.mpr fun entry member => by simpa using tabulated entry member
        simp only [encodingOf?, found, outside, Option.map_none] at accepted
        cases accepted

/-- Storing a text as a value is storing the text; it numbers nothing. -/
theorem run_saveValue_string {σ : Type} {charset : Charset} {h : Heap} {numbering : Numbering σ}
    {s : String} {state state' : σ} {stored : TagNode × Bytes}
    : (saveValue charset h numbering (.string s)).run state = .ok stored state'
      ↔ saveString charset s = .ok stored ∧ state' = state := by
  simp only [saveValue]
  cases saveString charset s with
  | ok parts =>
      constructor
      · intro saved
        cases saved
        exact ⟨rfl, rfl⟩
      · rintro ⟨same, rfl⟩
        cases same
        rfl
  | error fault =>
      constructor
      · intro saved
        cases saved
      · rintro ⟨same, -⟩
        cases same

/-- A text that is stored is loaded as what its bytes are read as, whatever follows. -/
theorem load_stored {charset : Charset} {s : String} {node : TagNode} {data : Bytes}
    (saved : saveString charset s = .ok (node, data)) (resolver : Resolver) (rest : Bytes) (h : Heap)
    (refs : References)
    : (Reader.value charset resolver node).run ⟨data ++ rest, h, refs⟩
      = .ok (.string (charset.decode (charset.encode s))) ⟨rest, h, refs⟩ :=
  Reader.value_eq_ok.mpr ⟨_, rest, h, Item.parse?_saveString saved rest, rfl, rfl⟩

/-- Of an accepted label whose encoding has a table: a text in the characters of the encoding is stored if
its bytes can be counted, and loaded as what they are read as. That is the text itself exactly if the
encoding keeps it: always, unless it is for reading only.
-/
theorem text_survives_iff {label s : String} {charset : Charset} (accepted : ofLabel label = .ok charset)
    (tabulated : ∀ entry ∈ unsupported, (trimmed label).toLower ∉ entry.2)
    (inside : ∀ c ∈ s.toList, charset.encoding.Has c)
    : (∃ entry ∈ registered, charset.encoding = entry.1)
      ∧ (charset.decode (charset.encode s) = s ↔ charset.encoding.Keeps s)
      ∧ ∀ {σ : Type} (h : Heap) (numbering : Numbering σ) (state : σ),
          ((∃ stored, (saveValue charset h numbering (.string s)).run state = .ok stored state)
            ↔ (charset.encode s).length < 0x100000000)
          ∧ ∀ node data state',
              (saveValue charset h numbering (.string s)).run state = .ok (node, data) state' →
              ∀ (resolver : Resolver) (rest : Bytes) (h' : Heap) (refs : References),
                (Reader.value charset resolver node).run ⟨data ++ rest, h', refs⟩
                = .ok (.string (charset.decode (charset.encode s))) ⟨rest, h', refs⟩ := by
  obtain ⟨entry, listed, same⟩ := listed_of_ofLabel accepted tabulated
  have fits : charset.encoding.Fits := by
    rw [same]
    exact fits_of_listed listed
  refine ⟨⟨entry, listed, same⟩, Encoding.decode_encode_iff fits inside,
    fun {σ} h numbering state => ⟨?_, ?_⟩⟩
  · rw [← saveString_ok_iff]
    exact exists_congr fun stored => run_saveValue_string.trans (and_iff_left rfl)
  · intro node data state' saved
    exact load_stored (run_saveValue_string.mp saved).1

theorem cyrillic_survives
    : (∀ entry ∈ unsupported, (trimmed " CP1251").toLower ∉ entry.2)
      ∧ ∃ charset, ofLabel " CP1251" = .ok charset
          ∧ (∀ c ∈ "Да".toList, charset.encoding.Has c)
          ∧ charset.decode (charset.encode "Да") = "Да" := by
  have key : (trimmed " CP1251").toLower = "cp1251" := by decide +kernel
  have tabulated : ∀ entry ∈ unsupported, (trimmed " CP1251").toLower ∉ entry.2 := by
    rw [key]
    simp [unsupported]
  have listed : (Encoding.singleByte "windows-1251" Encoding.windows1251Upper,
      ["cp1251", "windows-1251", "x-cp1251"]) ∈ registered := by simp [registered]
  have named : (trimmed " CP1251").toLower ∈ ["cp1251", "windows-1251", "x-cp1251"] := by
    rw [key]
    exact List.mem_cons_self
  obtain ⟨charset, accepted, same⟩ := ofLabel_listed listed named
  have inside : ∀ c ∈ "Да".toList, charset.encoding.Has c := by
    have characters : "Да".toList = ['Д', 'а'] := by decide
    intro c found
    rw [characters, List.mem_cons, List.mem_singleton] at found
    rw [same]
    rcases found with rfl | rfl
    · decide
    · decide
  have survives := (text_survives_iff accepted tabulated inside).2.1.mpr (by rw [same]; trivial)
  exact ⟨tabulated, charset, accepted, inside, survives⟩

/-- In units of two bytes, the byte of an ASCII character is only half a unit. -/
theorem ascii_lost_in_units
    : ∃ charset, ofLabel "utf-16le" = .ok charset
        ∧ (∀ c ∈ "a".toList, charset.encoding.Has c)
        ∧ charset.encode "a" = [0x61]
        ∧ charset.decode (charset.encode "a") = "\uFFFD"
        ∧ charset.decode (charset.encode "a") ≠ "a" := by
  have listed : (Encoding.utf16 false, ["csunicode", "iso-10646-ucs-2", "ucs-2", "unicode",
      "unicodefeff", "utf-16", "utf-16le"]) ∈ registered := by simp [registered]
  have named : (trimmed "utf-16le").toLower ∈ ["csunicode", "iso-10646-ucs-2", "ucs-2", "unicode",
      "unicodefeff", "utf-16", "utf-16le"] := by decide +kernel
  obtain ⟨⟨name, encoding⟩, accepted, same⟩ := ofLabel_listed listed named
  cases same
  have written : (Encoding.utf16 false).encode "a" = [0x61] := by decide +kernel
  have read : (Encoding.utf16 false).decode ((Encoding.utf16 false).encode "a") = "\uFFFD" := by
    decide +kernel
  have different : ("\uFFFD" : String) ≠ "a" := by decide +kernel
  exact ⟨_, accepted, fun c found => trivial, written, read, fun same => different (read.symm.trans same)⟩

end Charset
end TaskMachine
