import TaskMachine.Codec.Saving
import TaskMachine.Proofs.Codec.Items
import TaskMachine.Proofs.Codec.Utf8

/-!
Values that are stored and read back. The bytes of a stored segment are parsed into one item for each
value: a value that stands for itself, or the number that the value got while it was stored.
-/

namespace TaskMachine

-----------------------------------------------------------------------------------------
-- Nodes
-----------------------------------------------------------------------------------------

namespace TagNode

theorem length_toBytes (node : TagNode) : node.toBytes.length = 6 := by
  simp [toBytes, Bytes.length_ofNat]

/-- A node is read back from its bytes. -/
theorem ofBytes_toBytes (node : TagNode) : ofBytes node.toBytes = node := by
  have tag := node.tag.toNat_lt
  have payload := node.payload.toNat_lt
  rw [ofBytes, toBytes, List.take_left' (Bytes.length_ofNat 2 _),
    List.drop_left' (Bytes.length_ofNat 2 _), Bytes.toNat_ofNat 2 _ tag,
    Bytes.toNat_ofNat 4 _ payload, UInt16.ofNat_toNat, UInt32.ofNat_toNat]

/-- Whether a node is a real is in the low byte of its tag. -/
theorem isReal_of_low {node : TagNode} (low : node.tag.toNat % 256 ≠ 0) : node.isReal = true := by
  have different : node.tag &&& 0xFF ≠ 0 := by
    intro same
    have zero := congrArg UInt16.toNat same
    rw [UInt16.toNat_and] at zero
    exact low (by rwa [← Nat.and_two_pow_sub_one_eq_mod _ 8])
  simp [isReal, different]

/-- The tags of the kinds of values are no reals. -/
theorem isReal_eq_false {node : TagNode}
    (kind : node.tag ∈ [nullTag, integerTag, booleanTag, stringTag, longStringTag, routineTag,
      arrayTag])
    : node.isReal = false := by
  simp only [List.mem_cons, List.not_mem_nil, or_false] at kind
  rcases kind with tag | tag | tag | tag | tag | tag | tag
  all_goals
    rw [isReal, tag]
    rfl

end TagNode

/-- Every stored float is a real, by the cases of its size. -/
theorem Real48.isReal_encode (x : Float) : (encode x).isReal = true := by
  have infinite (sign : Nat) : (infinity sign).isReal = true :=
    TagNode.isReal_of_low (by show 0xFFFF % 256 ≠ 0; omega)
  simp only [encode]
  split
  · split
    · exact infinite _
    · rfl
  split
  · rfl
  split
  · rfl
  split
  · exact infinite _
  · refine TagNode.isReal_of_low ?_
    simp only [UInt16.toNat_ofNat']
    omega

-----------------------------------------------------------------------------------------
-- Single values
-----------------------------------------------------------------------------------------

/-- A text can be stored if four bytes are enough for its length, by the forms that texts are stored in.
-/
theorem saveString_ok_iff {charset : Charset} {s : String}
    : (∃ stored, saveString charset s = .ok stored) ↔ (charset.encode s).length < 0x100000000 := by
  simp only [saveString]
  split
  · exact ⟨fun _ => by omega, fun _ => ⟨_, rfl⟩⟩
  split
  · exact ⟨fun _ => by omega, fun _ => ⟨_, rfl⟩⟩
  split
  · rename_i few
    exact ⟨fun _ => few, fun _ => ⟨_, rfl⟩⟩
  · rename_i many
    constructor
    · intro stored
      obtain ⟨_, refused⟩ := stored
      cases refused
    · intro few
      exact absurd few many

/-- No character set makes a text of nothing. -/
theorem Charset.decode_nil (charset : Charset) : charset.decode [] = "" := by
  obtain ⟨name, encoding⟩ := charset
  cases encoding <;> rfl

namespace Item

private theorem text?_append (charset : Charset) (s : String) (rest : Bytes)
    : text? charset (charset.encode s).length (charset.encode s ++ rest)
      = some (.plain (.string (charset.decode (charset.encode s))), rest) := by
  simp only [text?, Bytes.split?_append, Option.map_some]

/-- A stored text is parsed as what its bytes are read as, by the three forms that texts are stored in. -/
theorem parse?_saveString {charset : Charset} {s : String} {node : TagNode} {data : Bytes}
    (saved : saveString charset s = .ok (node, data)) (rest : Bytes)
    : parse? charset node (data ++ rest)
      = some (.plain (.string (charset.decode (charset.encode s))), rest) := by
  simp only [saveString] at saved
  split at saved
  · rename_i empty
    cases saved
    have none : charset.decode (charset.encode s) = "" := by
      rw [List.length_eq_zero_iff.mp empty, Charset.decode_nil]
    rw [parse?, TagNode.isReal_eq_false (by simp)]
    simp [TagNode.nullTag, TagNode.integerTag, TagNode.booleanTag, TagNode.float32Tag,
      TagNode.stringTag, none]
  split at saved
  · rename_i some short
    cases saved
    have length : (UInt8.ofNat (charset.encode s).length).toNat
        = (charset.encode s).length := by
      rw [UInt8.toNat_ofNat']
      omega
    have payload : (UInt32.ofNat ((charset.encode s).length + 1)).toNat ≠ 0 := by
      rw [UInt32.toNat_ofNat']
      omega
    have first : Bytes.split? 1
          (UInt8.ofNat (charset.encode s).length :: (charset.encode s ++ rest))
        = .some ([UInt8.ofNat (charset.encode s).length], charset.encode s ++ rest) := rfl
    rw [parse?, TagNode.isReal_eq_false (by simp), List.cons_append]
    simp only [TagNode.nullTag, TagNode.integerTag, TagNode.booleanTag, TagNode.float32Tag,
      TagNode.stringTag, payload, first, Bytes.toNat, length]
    exact text?_append charset s rest
  split at saved
  · rename_i some _ long
    cases saved
    have payload : (UInt32.ofNat (charset.encode s).length).toNat
        = (charset.encode s).length := by
      rw [UInt32.toNat_ofNat']
      omega
    rw [parse?, TagNode.isReal_eq_false (by simp)]
    simp only [TagNode.nullTag, TagNode.integerTag, TagNode.booleanTag, TagNode.float32Tag,
      TagNode.stringTag, TagNode.longStringTag, payload]
    exact text?_append charset s rest
  · cases saved

end Item

-----------------------------------------------------------------------------------------
-- Values and their items
-----------------------------------------------------------------------------------------

/-- The value is none of those whose stored form does not stand for it: no host object, and no float
that is rounded when it is stored.
-/
def Value.Storable : Value → Prop
  | .float x => Real48.decode (Real48.encode x) = x
  | .object _ => False
  | _ => True

section

variable {σ : Type} {h : Heap} {numbering : Numbering σ}

/-- While a value is stored, the item is found: the value itself, or the number that it is given. -/
inductive Stores (h : Heap) (numbering : Numbering σ) : σ → Value → Item → σ → Prop
  | plain {s : σ} {v : Value} (standsAlone : ¬ v.IsHandle)
    : Stores h numbering s v (.plain v) s
  | routine {s s' : σ} {c : CallableId} {r : RoutineId} {number : Nat}
    (direct : h.callable c = .direct (.subroutine r))
    (numbered : (numbering.routine r).run s = .ok number s')
    : Stores h numbering s (.callable c) (.routine (UInt32.ofNat number).toNat) s'
  | array {s s' : σ} {a : ArrayId} {number : Nat}
    (numbered : (numbering.array a).run s = .ok number s')
    : Stores h numbering s (.array a) (.array (UInt32.ofNat number).toNat) s'

/-- Values are stored one after another. -/
inductive StoresAll (h : Heap) (numbering : Numbering σ) : σ → List Value → List Item → σ → Prop
  | nil {s : σ} : StoresAll h numbering s [] [] s
  | cons {s s₁ s₂ : σ} {v : Value} {item : Item} {values : List Value} {items : List Item}
    (first : Stores h numbering s v item s₁) (others : StoresAll h numbering s₁ values items s₂)
    : StoresAll h numbering s (v :: values) (item :: items) s₂

/-- What is stored of a value is parsed into its item, by the kinds of values. -/
theorem stores_of_saveValue {v : Value} {s s' : σ} {node : TagNode} {data : Bytes}
    (storable : v.Storable)
    (saved : (saveValue .utf8 h numbering v).run s = .ok (node, data) s')
    : ∃ item, Stores h numbering s v item s'
      ∧ ∀ rest, Item.parse? .utf8 node (data ++ rest) = some (item, rest) := by
  cases v with
  | null =>
      cases saved
      refine ⟨_, .plain id, fun rest => ?_⟩
      rw [Item.parse?, TagNode.isReal_eq_false (by simp)]
      simp
  | integer n =>
      cases saved
      refine ⟨_, .plain id, fun rest => ?_⟩
      rw [Item.parse?, TagNode.isReal_eq_false (by simp)]
      simp [TagNode.nullTag, TagNode.integerTag]
  | boolean b =>
      cases saved
      refine ⟨_, .plain id, fun rest => ?_⟩
      rw [Item.parse?, TagNode.isReal_eq_false (by simp)]
      cases b <;> simp [TagNode.nullTag, TagNode.integerTag, TagNode.booleanTag]
  | float x =>
      cases saved
      refine ⟨_, .plain id, fun rest => ?_⟩
      rw [Item.parse?, Real48.isReal_encode x, if_pos rfl, storable]
      rfl
  | string text =>
      simp only [saveValue] at saved
      cases stored : saveString .utf8 text with
      | error fault =>
          rw [stored] at saved
          cases saved
      | ok parts =>
          rw [stored] at saved
          cases saved
          refine ⟨_, .plain id, fun rest => ?_⟩
          rw [Item.parse?_saveString stored, Charset.decode_encode_utf8]
  | callable c =>
      simp only [saveValue] at saved
      split at saved
      · rename_i r direct
        obtain ⟨number, s₁, numbered, done⟩ := run_bind_eq_ok.mp saved
        cases done
        refine ⟨_, .routine direct numbered, fun rest => ?_⟩
        rw [Item.parse?, TagNode.isReal_eq_false (by simp)]
        simp [TagNode.nullTag, TagNode.integerTag, TagNode.booleanTag, TagNode.float32Tag,
          TagNode.stringTag, TagNode.longStringTag, TagNode.routineTag]
      · cases saved
  | array a =>
      obtain ⟨number, s₁, numbered, done⟩ := run_bind_eq_ok.mp saved
      cases done
      refine ⟨_, .array numbered, fun rest => ?_⟩
      rw [Item.parse?, TagNode.isReal_eq_false (by simp)]
      simp [TagNode.nullTag, TagNode.integerTag, TagNode.booleanTag, TagNode.float32Tag,
        TagNode.stringTag, TagNode.longStringTag, TagNode.routineTag, TagNode.arrayTag]
  | object o => exact storable.elim

/-- What is stored of several values is parsed into their items, by induction on the values. -/
theorem storesAll_of_mapM {values : List Value} {s s' : σ} {stored : List (TagNode × Bytes)}
    (storable : ∀ v ∈ values, v.Storable)
    (saved : (values.mapM (saveValue .utf8 h numbering)).run s = .ok stored s')
    : ∃ items, StoresAll h numbering s values items s'
      ∧ stored.length = values.length
      ∧ ∀ rest, Item.parseAll? .utf8 (stored.map (·.1)) (stored.flatMap (·.2) ++ rest)
        = some (items, rest) := by
  induction values generalizing s stored with
  | nil =>
      cases saved
      exact ⟨[], .nil, rfl, fun rest => rfl⟩
  | cons v values ih =>
      obtain ⟨⟨node, data⟩, s₁, others, first, next, rfl⟩ := run_mapM_cons_eq_ok.mp saved
      obtain ⟨item, storesFirst, parsed⟩ :=
        stores_of_saveValue (storable v List.mem_cons_self) first
      obtain ⟨items, storesOthers, length, parsedOthers⟩ :=
        ih (fun w member => storable w (List.mem_cons_of_mem _ member)) next
      refine ⟨item :: items, .cons storesFirst storesOthers, by simp [length], fun rest => ?_⟩
      simp only [List.map_cons, List.flatMap_cons, List.append_assoc, Item.parseAll?, parsed,
        parsedOthers, Option.map_some]

theorem nodes?_append (nodes : List TagNode) (rest : Bytes)
    : Item.nodes? nodes.length (nodes.flatMap TagNode.toBytes ++ rest) = some (nodes, rest) := by
  induction nodes with
  | nil => rfl
  | cons node nodes ih =>
      have first := Bytes.split?_append node.toBytes (nodes.flatMap TagNode.toBytes ++ rest)
      rw [TagNode.length_toBytes] at first
      simp only [List.length_cons, List.flatMap_cons, List.append_assoc, Item.nodes?, first, ih,
        TagNode.ofBytes_toBytes, Option.map_some]

/-- The bytes of a stored segment are parsed into the items of its values, and nothing is left. -/
theorem storesAll_of_saveSegment {values : List Value} {s s' : σ} {bytes : Bytes}
    (storable : ∀ v ∈ values, v.Storable)
    (saved : (saveSegment .utf8 h numbering values).run s = .ok bytes s')
    : ∃ items, StoresAll h numbering s values items s'
      ∧ Item.segment? .utf8 values.length bytes = some (items, []) := by
  obtain ⟨stored, s₁, savedAll, done⟩ := run_bind_eq_ok.mp saved
  cases done
  obtain ⟨items, stores, length, parsed⟩ := storesAll_of_mapM storable savedAll
  refine ⟨items, stores, ?_⟩
  have nodes := nodes?_append (stored.map (·.1)) (stored.flatMap (·.2))
  rw [List.length_map, length, List.flatMap_map] at nodes
  have rest := parsed []
  rw [List.append_nil] at rest
  simp only [Item.segment?, nodes, rest]

end

end TaskMachine
