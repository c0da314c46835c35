import TaskMachine.Codec.Loading
import TaskMachine.Proofs.Computation

/-!
Stored values before their references are resolved. What the bytes of a segment say does not depend
on what has been loaded: reading a segment is parsing it into items, and then resolving the items one
after another.
-/

namespace TaskMachine

/-- The value refers to something on the heap. -/
def Value.IsHandle : Value → Prop
  | .array _ | .callable _ | .object _ => True
  | _ => False

/-- What the stored form of a value says: a value that stands for itself, or the number of a routine
or an array.
-/
inductive Item where
  | plain (v : Value)
  | routine (number : Nat)
  | array (number : Nat)

namespace Item

-----------------------------------------------------------------------------------------
-- Parsing
-----------------------------------------------------------------------------------------

/-- A text of so many bytes. -/
def text? (charset : Charset) (length : Nat) (bytes : Bytes) : Option (Item × Bytes) :=
  (Bytes.split? length bytes).map fun (front, back) =>
    (.plain (.string (charset.decode front)), back)

/-- The item of a node, which may take further bytes. -/
def parse? (charset : Charset) (node : TagNode) (bytes : Bytes) : Option (Item × Bytes) :=
  let payload := node.payload.toNat
  if node.isReal then some (.plain (.float (Real48.decode node)), bytes)
  else if node.tag = TagNode.nullTag then some (.plain .null, bytes)
  else if node.tag = TagNode.integerTag then some (.plain (.integer node.payload.toInt32), bytes)
  else if node.tag = TagNode.booleanTag then some (.plain (.boolean (node.payload != 0)), bytes)
  else if node.tag = TagNode.float32Tag then
    some (.plain (.float (Float32.ofBits node.payload).toFloat), bytes)
  else if node.tag = TagNode.stringTag then
    if payload = 0 then some (.plain (.string ""), bytes)
    else
      match Bytes.split? 1 bytes with
      | some (length, rest) => text? charset (Bytes.toNat length) rest
      | none => none
  else if node.tag = TagNode.longStringTag then text? charset payload bytes
  else if node.tag = TagNode.routineTag then some (.routine payload, bytes)
  else if node.tag = TagNode.arrayTag then some (.array payload, bytes)
  else none

/-- The items of nodes in their order. -/
def parseAll? (charset : Charset) : List TagNode → Bytes → Option (List Item × Bytes)
  | [], bytes => some ([], bytes)
  | node :: rest, bytes =>
    match parse? charset node bytes with
    | some (item, bytes) =>
      (parseAll? charset rest bytes).map fun (items, bytes) => (item :: items, bytes)
    | none => none

/-- The first `count` nodes. -/
def nodes? : Nat → Bytes → Option (List TagNode × Bytes)
  | 0, bytes => some ([], bytes)
  | count + 1, bytes =>
    match Bytes.split? 6 bytes with
    | some (front, back) =>
      (nodes? count back).map fun (nodes, bytes) => (TagNode.ofBytes front :: nodes, bytes)
    | none => none

/-- The items of `count` nodes in front of their further bytes. -/
def segment? (charset : Charset) (count : Nat) (bytes : Bytes) : Option (List Item × Bytes) :=
  match nodes? count bytes with
  | some (nodes, rest) => parseAll? charset nodes rest
  | none => none

private theorem length_nodes {count : Nat} {bytes rest : Bytes} {nodes : List TagNode}
    (parsed : nodes? count bytes = some (nodes, rest))
    : nodes.length = count := by
  induction count generalizing bytes nodes with
  | zero =>
      cases parsed
      rfl
  | succ count ih =>
      simp only [nodes?] at parsed
      split at parsed
      · simp only [Option.map_eq_some_iff, Prod.exists, Prod.mk.injEq] at parsed
        obtain ⟨others, rest, parsedRest, rfl, rfl⟩ := parsed
        rw [List.length_cons, ih parsedRest]
      · cases parsed

/-- The first node is parsed, and then the others. -/
theorem parseAll?_cons {charset : Charset} {node : TagNode} {nodes : List TagNode}
    {bytes rest : Bytes} {items : List Item}
    : parseAll? charset (node :: nodes) bytes = some (items, rest)
      ↔ ∃ item others middle,
          parse? charset node bytes = some (item, middle)
          ∧ parseAll? charset nodes middle = some (others, rest)
          ∧ items = item :: others := by
  rw [parseAll?]
  cases parse? charset node bytes with
  | none => simp
  | some result =>
      obtain ⟨item, middle⟩ := result
      simp only [Option.map_eq_some_iff, Prod.exists, Prod.mk.injEq, Option.some.injEq]
      constructor
      · intro given
        obtain ⟨others, _, parsed, rfl, rfl⟩ := given
        exact ⟨item, others, middle, ⟨rfl, rfl⟩, parsed, rfl⟩
      · intro given
        obtain ⟨_, others, _, ⟨rfl, rfl⟩, parsed, rfl⟩ := given
        exact ⟨others, rest, parsed, rfl, rfl⟩

/-- Each node becomes one item. -/
theorem length_parseAll {charset : Charset} {nodes : List TagNode} {bytes rest : Bytes}
    {items : List Item} (parsed : parseAll? charset nodes bytes = some (items, rest))
    : items.length = nodes.length := by
  induction nodes generalizing bytes items with
  | nil =>
      cases parsed
      rfl
  | cons node nodes ih =>
      obtain ⟨item, others, middle, -, parsedRest, rfl⟩ := parseAll?_cons.mp parsed
      rw [List.length_cons, List.length_cons, ih parsedRest]

/-- A segment has as many items as it says. -/
theorem length_segment {charset : Charset} {count : Nat} {bytes rest : Bytes} {items : List Item}
    (parsed : segment? charset count bytes = some (items, rest))
    : items.length = count := by
  simp only [segment?] at parsed
  split at parsed
  · rename_i parsedNodes
    rw [length_parseAll parsed, length_nodes parsedNodes]
  · cases parsed

/-- A value that is parsed as standing for itself is no handle. -/
def StandsAlone (parsed : Option (Item × Bytes)) : Prop :=
  ∀ v rest, parsed = some (.plain v, rest) → ¬ v.IsHandle

theorem StandsAlone.plain {v : Value} {bytes : Bytes} (value : ¬ v.IsHandle)
    : StandsAlone (some (.plain v, bytes)) := by
  intro w rest parsed
  cases parsed
  exact value

theorem StandsAlone.ite {condition : Prop} [Decidable condition] {first second : Option (Item × Bytes)}
    (yes : StandsAlone first) (no : StandsAlone second)
    : StandsAlone (if condition then first else second) := by
  split
  · exact yes
  · exact no

private theorem standsAlone_text (charset : Charset) (length : Nat) (bytes : Bytes)
    : StandsAlone (text? charset length bytes) := by
  intro v rest parsed
  simp only [text?, Option.map_eq_some_iff, Prod.mk.injEq, plain.injEq] at parsed
  obtain ⟨_, _, rfl, -⟩ := parsed
  exact id

/-- Values that stand for themselves are no handles, by the kinds of nodes. -/
theorem standsAlone_parse (charset : Charset) (node : TagNode) (bytes : Bytes)
    : StandsAlone (parse? charset node bytes) := by
  have text : StandsAlone (match Bytes.split? 1 bytes with
      | some (length, rest) => text? charset (Bytes.toNat length) rest
      | none => none) := by
    split
    · exact standsAlone_text _ _ _
    · intro v rest parsed
      cases parsed
  unfold parse?
  -- floats, nulls, integers, booleans and short floats
  apply StandsAlone.ite (.plain id)
  apply StandsAlone.ite (.plain id)
  apply StandsAlone.ite (.plain id)
  apply StandsAlone.ite (.plain id)
  apply StandsAlone.ite (.plain id)
  -- texts
  apply StandsAlone.ite (.ite (.plain id) text)
  apply StandsAlone.ite (standsAlone_text _ _ _)
  -- references
  intro v rest parsed
  split at parsed
  · cases parsed
  · split at parsed
    · cases parsed
    · cases parsed

/-- Only numbers of routines and arrays are left to be resolved; a plain item is no handle. -/
theorem not_handle_of_parseAll {charset : Charset} {nodes : List TagNode} {bytes rest : Bytes}
    {items : List Item} (parsed : parseAll? charset nodes bytes = some (items, rest)) {v : Value}
    (member : .plain v ∈ items)
    : ¬ v.IsHandle := by
  induction nodes generalizing bytes items with
  | nil =>
      cases parsed
      cases member
  | cons node nodes ih =>
      obtain ⟨item, others, middle, parsedFirst, parsedRest, rfl⟩ := parseAll?_cons.mp parsed
      rcases List.mem_cons.mp member with rfl | later
      · exact standsAlone_parse _ _ _ _ _ parsedFirst
      · exact ih parsedRest later

-----------------------------------------------------------------------------------------
-- Resolving
-----------------------------------------------------------------------------------------

/-- The references with that of an item added, if it has one. -/
def note (references : References) : Item → References
  | .plain _ => references
  | .routine number => { references with routines := number :: references.routines }
  | .array number => { references with arrays := number :: references.arrays }

/-- The value of an item. A routine becomes a new callable. -/
def resolve (resolver : Resolver) (h : Heap) : Item → Except Fault (Heap × Value)
  | .plain v => .ok (h, v)
  | .routine number => (resolver.routine number).map h.addSubroutine
  | .array number => (resolver.array number).map fun a => (h, .array a)

/-- The values of items, one after another. -/
def resolveAll (resolver : Resolver) : Heap → List Item → Except Fault (Heap × List Value)
  | h, [] => .ok (h, [])
  | h, item :: rest =>
    match item.resolve resolver h with
    | .ok (h, v) => (resolveAll resolver h rest).map fun (h, values) => (h, v :: values)
    | .error f => .error f

/-- The first item is resolved, and then the others on the heap that this has left. -/
theorem resolveAll_cons {resolver : Resolver} {h h' : Heap} {item : Item} {rest : List Item}
    {values : List Value}
    : resolveAll resolver h (item :: rest) = .ok (h', values)
      ↔ ∃ h₁ v others,
          item.resolve resolver h = .ok (h₁, v)
          ∧ resolveAll resolver h₁ rest = .ok (h', others)
          ∧ values = v :: others := by
  rw [resolveAll]
  cases item.resolve resolver h with
  | error f => simp
  | ok result =>
      obtain ⟨h₁, v⟩ := result
      simp only [Except.ok.injEq, Prod.mk.injEq]
      constructor
      · intro done
        cases resolved : resolveAll resolver h₁ rest with
        | error f =>
            rw [resolved] at done
            cases done
        | ok others =>
            rw [resolved] at done
            cases done
            exact ⟨h₁, v, others.2, ⟨rfl, rfl⟩, resolved, rfl⟩
      · intro given
        obtain ⟨_, _, others, ⟨rfl, rfl⟩, resolved, rfl⟩ := given
        rw [resolved]
        rfl

/-- Each item becomes one value. -/
theorem length_resolveAll {resolver : Resolver} {h h' : Heap} {items : List Item}
    {values : List Value} (resolved : resolveAll resolver h items = .ok (h', values))
    : values.length = items.length := by
  induction items generalizing h values with
  | nil =>
      cases resolved
      rfl
  | cons item rest ih =>
      obtain ⟨h₁, v, others, -, resolvedRest, rfl⟩ := resolveAll_cons.mp resolved
      rw [List.length_cons, List.length_cons, ih resolvedRest]

end Item

namespace Reader

variable {charset : Charset} {resolver : Resolver} {bytes : Bytes} {h : Heap} {refs : References}

/-- A shortage takes all that is left. -/
theorem run_bytes (n : Nat) (shortage : Fault)
    : (Reader.bytes n shortage).run ⟨bytes, h, refs⟩
      = match Bytes.split? n bytes with
        | some (front, back) => .ok front ⟨back, h, refs⟩
        | none => .error shortage ⟨[], h, refs⟩ := by
  simp only [Reader.bytes, EStateM.run_bind, EStateM.run_get]
  cases Bytes.split? n bytes <;> rfl

private theorem run_string (length : Nat)
    : (Reader.string charset length).run ⟨bytes, h, refs⟩
      = match Bytes.split? length bytes with
        | some (front, back) => .ok (.string (charset.decode front)) ⟨back, h, refs⟩
        | none => .error (.badFormat "string data truncated") ⟨[], h, refs⟩ := by
  simp only [Reader.string, EStateM.run_bind, run_bytes]
  cases Bytes.split? length bytes <;> rfl

/-- How reading goes on after an item was parsed: its value, or why it cannot be resolved. -/
inductive Reads (resolver : Resolver) (h : Heap) (refs : References)
    : Option (Item × Bytes) → EStateM.Result Fault Loading Value → Prop
  | ok {item : Item} {rest : Bytes} {h' : Heap} {v : Value}
    (resolved : item.resolve resolver h = .ok (h', v))
    : Reads resolver h refs (some (item, rest)) (.ok v ⟨rest, h', item.note refs⟩)
  | unresolved {item : Item} {rest : Bytes} {f : Fault} (s : Loading)
    (failed : item.resolve resolver h = .error f)
    : Reads resolver h refs (some (item, rest)) (.error f s)
  | malformed (f : Fault) (s : Loading)
    : Reads resolver h refs none (.error f s)

private theorem reads_string (length : Nat)
    : Reads resolver h refs (Item.text? charset length bytes)
        ((Reader.string charset length).run ⟨bytes, h, refs⟩) := by
  rw [run_string, Item.text?]
  cases Bytes.split? length bytes with
  | none => exact .malformed _ _
  | some parts => exact .ok rfl

private theorem reads_routine (number : Nat)
    : Reads resolver h refs (some (.routine number, bytes))
        ((Reader.routine resolver number).run ⟨bytes, h, refs⟩) := by
  simp only [Reader.routine, EStateM.run_bind, EStateM.run_modify]
  cases found : resolver.routine number with
  | ok r => exact .ok (by simp only [Item.resolve, found]; rfl)
  | error f => exact .unresolved _ (by simp only [Item.resolve, found]; rfl)

private theorem reads_array (number : Nat)
    : Reads resolver h refs (some (.array number, bytes))
        ((Reader.array resolver number).run ⟨bytes, h, refs⟩) := by
  simp only [Reader.array, EStateM.run_bind, EStateM.run_modify]
  cases found : resolver.array number with
  | ok a => exact .ok (by simp only [Item.resolve, found]; rfl)
  | error f => exact .unresolved _ (by simp only [Item.resolve, found]; rfl)

/-- Reading and parsing may choose in the same way. -/
theorem Reads.ite {condition : Prop} [Decidable condition] {first second : Option (Item × Bytes)}
    {x y : Reader Value} {s : Loading} (yes : Reads resolver h refs first (x.run s))
    (no : Reads resolver h refs second (y.run s))
    : Reads resolver h refs (if condition then first else second)
        ((if condition then x else y).run s) := by
  split
  · exact yes
  · exact no

/-- Reading a value is parsing its item and resolving it, by the cases of the tag. -/
theorem reads_value (node : TagNode)
    : Reads resolver h refs (Item.parse? charset node bytes)
        ((Reader.value charset resolver node).run ⟨bytes, h, refs⟩) := by
  unfold Reader.value Item.parse?
  -- floats, nulls, integers, booleans and short floats
  apply Reads.ite (.ok rfl)
  apply Reads.ite (.ok rfl)
  apply Reads.ite (.ok rfl)
  apply Reads.ite (.ok rfl)
  apply Reads.ite (.ok rfl)
  -- texts
  refine .ite (.ite (.ok rfl) ?_) ?_
  · simp only [EStateM.run_bind, run_bytes]
    cases Bytes.split? 1 bytes with
    | none => exact .malformed _ _
    | some parts => exact reads_string _
  apply Reads.ite (reads_string _)
  -- references
  apply Reads.ite (reads_routine _)
  apply Reads.ite (reads_array _)
  exact .malformed _ _

/-- A value is read if its item can be parsed and resolved. -/
theorem value_eq_ok {node : TagNode} {v : Value} {s : Loading}
    : (Reader.value charset resolver node).run ⟨bytes, h, refs⟩ = .ok v s
      ↔ ∃ item rest h',
          Item.parse? charset node bytes = some (item, rest)
          ∧ item.resolve resolver h = .ok (h', v)
          ∧ s = ⟨rest, h', item.note refs⟩ := by
  have reads : Reads resolver h refs (Item.parse? charset node bytes)
      ((Reader.value charset resolver node).run ⟨bytes, h, refs⟩) := reads_value node
  generalize (Reader.value charset resolver node).run ⟨bytes, h, refs⟩ = result at reads ⊢
  generalize Item.parse? charset node bytes = parsed at reads ⊢
  cases reads with
  | @ok item rest h' w resolved =>
      constructor
      · intro same
        cases same
        exact ⟨item, rest, h', rfl, resolved, rfl⟩
      · intro given
        obtain ⟨_, _, _, same, again, rfl⟩ := given
        cases same
        rw [resolved] at again
        cases again
        rfl
  | unresolved s failed =>
      constructor
      · intro same
        cases same
      · intro given
        obtain ⟨_, _, _, same, again, -⟩ := given
        cases same
        rw [failed] at again
        cases again
  | malformed f s => simp

/-- Values are read if their items can be parsed and resolved, by induction on the nodes. -/
theorem mapM_value_eq_ok {nodes : List TagNode} {values : List Value} {s : Loading}
    : (nodes.mapM (Reader.value charset resolver)).run ⟨bytes, h, refs⟩ = .ok values s
      ↔ ∃ items rest h',
          Item.parseAll? charset nodes bytes = some (items, rest)
          ∧ Item.resolveAll resolver h items = .ok (h', values)
          ∧ s = ⟨rest, h', items.foldl Item.note refs⟩ := by
  induction nodes generalizing bytes h refs values with
  | nil =>
      constructor
      · intro done
        cases done
        exact ⟨[], bytes, h, rfl, rfl, rfl⟩
      · intro given
        obtain ⟨_, _, _, parsed, resolved, rfl⟩ := given
        cases parsed
        cases resolved
        rfl
  | cons node nodes ih =>
      rw [run_mapM_cons_eq_ok]
      constructor
      · intro given
        obtain ⟨v, s₁, others, first, next, rfl⟩ := given
        obtain ⟨item, rest, h₁, parsed, resolved, rfl⟩ := value_eq_ok.mp first
        obtain ⟨items, rest', h₂, parsedRest, resolvedRest, rfl⟩ := ih.mp next
        exact ⟨item :: items, rest', h₂,
          Item.parseAll?_cons.mpr ⟨item, items, rest, parsed, parsedRest, rfl⟩,
          Item.resolveAll_cons.mpr ⟨h₁, v, others, resolved, resolvedRest, rfl⟩, rfl⟩
      · intro given
        obtain ⟨_, rest, h', parsed, resolved, rfl⟩ := given
        obtain ⟨item, items, middle, parsedFirst, parsedRest, rfl⟩ := Item.parseAll?_cons.mp parsed
        obtain ⟨h₁, v, others, resolvedFirst, resolvedRest, rfl⟩ := Item.resolveAll_cons.mp resolved
        have first : (Reader.value charset resolver node).run ⟨bytes, h, refs⟩
            = .ok v ⟨middle, h₁, item.note refs⟩ :=
          value_eq_ok.mpr ⟨item, middle, h₁, parsedFirst, resolvedFirst, rfl⟩
        have next := ih.mpr ⟨items, rest, h', parsedRest, resolvedRest, rfl⟩
        exact ⟨v, _, others, first, next, rfl⟩

/-- Nodes are collected latest first. -/
theorem nodes_eq_ok {count : Nat} {done nodes : List TagNode} {s : Loading}
    : (Reader.nodes count done).run ⟨bytes, h, refs⟩ = .ok nodes s
      ↔ ∃ more rest,
          Item.nodes? count bytes = some (more, rest)
          ∧ nodes = more.reverse ++ done ∧ s = ⟨rest, h, refs⟩ := by
  induction count generalizing bytes done with
  | zero =>
      constructor
      · intro read
        cases read
        exact ⟨[], bytes, rfl, rfl, rfl⟩
      · intro given
        obtain ⟨_, _, parsed, rfl, rfl⟩ := given
        cases parsed
        rfl
  | succ count ih =>
      simp only [Reader.nodes, Reader.node, EStateM.run_bind, run_bytes, Item.nodes?]
      cases Bytes.split? 6 bytes with
      | none => simp
      | some parts =>
          obtain ⟨front, back⟩ := parts
          simp only [EStateM.run_pure, ih, Option.map_eq_some_iff, Prod.exists, Prod.mk.injEq]
          constructor
          · intro given
            obtain ⟨more, rest, parsed, rfl, rfl⟩ := given
            exact ⟨_, rest, ⟨more, rest, parsed, rfl, rfl⟩, by simp, rfl⟩
          · intro given
            obtain ⟨_, rest, ⟨more, _, parsed, rfl, rfl⟩, rfl, rfl⟩ := given
            exact ⟨more, _, parsed, by simp, rfl⟩

/-- A segment is read if its items can be parsed and resolved. -/
theorem segment_eq_ok {count : Nat} {values : List Value} {s : Loading}
    : (Reader.segment charset resolver count).run ⟨bytes, h, refs⟩ = .ok values s
      ↔ ∃ items rest h',
          Item.segment? charset count bytes = some (items, rest)
          ∧ Item.resolveAll resolver h items = .ok (h', values)
          ∧ s = ⟨rest, h', items.foldl Item.note refs⟩ := by
  rw [Reader.segment, run_bind_eq_ok, Item.segment?]
  constructor
  · intro given
    obtain ⟨_, _, read, done⟩ := given
    obtain ⟨nodes, rest, parsed, rfl, rfl⟩ := nodes_eq_ok.mp read
    rw [List.append_nil, List.reverse_reverse] at done
    rw [parsed]
    exact mapM_value_eq_ok.mp done
  · intro given
    obtain ⟨items, rest, h', parsed, resolved, rfl⟩ := given
    split at parsed
    · rename_i nodes back parsedNodes
      refine ⟨nodes.reverse, _, nodes_eq_ok.mpr ⟨nodes, back, parsedNodes, by simp, rfl⟩, ?_⟩
      rw [List.reverse_reverse]
      exact mapM_value_eq_ok.mpr ⟨items, rest, h', parsed, resolved, rfl⟩
    · cases parsed

end Reader
end TaskMachine
