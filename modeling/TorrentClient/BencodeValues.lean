import TorrentClient.CheckedOperations
import TorrentClient.BencodeTrees
import TorrentClient.OrderedEntries

/-!
# Bencode values and the encoder

A `Value` is what the client makes of bencoded data: a byte string is a `string` where it is
valid UTF-8, and a dictionary is a map whose keys are strings, ordered by their bytes. The
encoder writes a value as the tree it stands for. Nested values are read by recursion; the stack
that it needs is not modelled.
-/
namespace TorrentClient
open Bencode DecimalNumerals

/-- `as_bytes` -/
def asBytes (s : String) : Bytes := s.toUTF8.data.toList

/-- `String::from_utf8` -/
def fromUtf8 (bytes : Bytes) : Option String := String.fromUTF8? ⟨⟨bytes⟩⟩

theorem fromUtf8_eq_some {bytes : Bytes} {s : String} :
    fromUtf8 bytes = some s ↔ asBytes s = bytes := by
  rw [fromUtf8, String.fromUTF8?]
  constructor
  · intro h
    split_ifs at h
    cases h
    rfl
  · rintro rfl
    exact dif_pos s.isValidUTF8

theorem fromUtf8_asBytes (s : String) : fromUtf8 (asBytes s) = some s := fromUtf8_eq_some.mpr rfl

theorem asBytes_injective : Function.Injective asBytes := by
  intro s t h
  exact Option.some.inj ((fromUtf8_asBytes s).symm.trans (fromUtf8_eq_some.mpr h.symm))

/-- The order of `str`, which compares the bytes. -/
def keyLt (s t : String) : Prop := asBytes s < asBytes t

instance : DecidableRel keyLt := fun s t => inferInstanceAs (Decidable (asBytes s < asBytes t))

instance : IsStrictTotalOrder String keyLt where
  irrefl s := List.lt_irrefl (asBytes s)
  trans _ _ _ h h' := List.lt_trans h h'
  trichotomous _ _ h h' := asBytes_injective (List.le_antisymm (List.not_lt.mp h') (List.not_lt.mp h))

/-- The entries of a dictionary are those of a `BTreeMap`. -/
inductive Value where
  | integer (i : Int64)
  | bytes (b : Bytes)
  | string (s : String)
  | list (items : List Value)
  | dict (entries : List (String × Value))

structure Encoder where
  data : Bytes

namespace Encoder

def new : Encoder := ⟨[]⟩

def writeByte (e : Encoder) (b : UInt8) : Encoder := ⟨e.data ++ [b]⟩

def write (e : Encoder) (b : Bytes) : Encoder := ⟨e.data ++ b⟩

def writeNumber (e : Encoder) (i : ℤ) : Encoder := e.write (intNumeral i)

/-- 105 is `i` and 101 is `e`. -/
def writeInteger (e : Encoder) (i : ℤ) : Encoder :=
  ((e.writeByte 105).writeNumber i).writeByte 101

/-- 58 is the colon. -/
def writeBytes (e : Encoder) (b : Bytes) : Encoder :=
  ((e.writeNumber b.length).writeByte 58).write b

def writeStr (e : Encoder) (s : String) : Encoder := e.writeBytes (asBytes s)

end Encoder

mutual

/-- A list is written between 108, which is `l`, and 101, a dictionary between 100, which
is `d`, and 101. -/
def Value.encode (e : Encoder) : Value → Encoder
  | .integer i => e.writeInteger i.toInt
  | .bytes b => e.writeBytes b
  | .string s => e.writeStr s
  | .list items => (writeList (e.writeByte 108) items).writeByte 101
  | .dict entries => (writeDict (e.writeByte 100) entries).writeByte 101

/-- The loop of `write_list`. -/
def writeList (e : Encoder) : List Value → Encoder
  | [] => e
  | v :: items => writeList (v.encode e) items

/-- The loop of `write_dict`. -/
def writeDict (e : Encoder) : List (String × Value) → Encoder
  | [] => e
  | (key, v) :: entries => writeDict (v.encode (e.writeStr key)) entries

end

mutual

/-- The keys of every dictionary are ascending, as those of a `BTreeMap` always are. -/
def Value.Ordered : Value → Prop
  | .integer _ => True
  | .bytes _ => True
  | .string _ => True
  | .list items => OrderedItems items
  | .dict entries => OrderedEntries.Ascending keyLt entries ∧ OrderedValues entries

def OrderedItems : List Value → Prop
  | [] => True
  | v :: items => v.Ordered ∧ OrderedItems items

def OrderedValues : List (String × Value) → Prop
  | [] => True
  | (_, v) :: entries => v.Ordered ∧ OrderedValues entries

end

/-- A byte string as `decode` returns it. -/
def stringValue (bytes : Bytes) : Value :=
  match fromUtf8 bytes with
  | some s => .string s
  | none => .bytes bytes

mutual

/-- The value with a `string` for every byte string that is valid UTF-8. -/
def Value.norm : Value → Value
  | .integer i => .integer i
  | .bytes b => stringValue b
  | .string s => .string s
  | .list items => .list (normItems items)
  | .dict entries => .dict (normValues entries)

def normItems : List Value → List Value
  | [] => []
  | v :: items => v.norm :: normItems items

def normValues : List (String × Value) → List (String × Value)
  | [] => []
  | (key, v) :: entries => (key, v.norm) :: normValues entries

end

mutual

/-- The tree that a value stands for. -/
def Value.toTree : Value → Tree
  | .integer i => .integer i.toInt
  | .bytes b => .string b
  | .string s => .string (asBytes s)
  | .list items => .list (treeItems items)
  | .dict entries => .dict (treeValues entries)

def treeItems : List Value → List Tree
  | [] => []
  | v :: items => v.toTree :: treeItems items

def treeValues : List (String × Value) → List (Bytes × Tree)
  | [] => []
  | (key, v) :: entries => (asBytes key, v.toTree) :: treeValues entries

end

namespace Value

theorem induct {p : Value → Prop} (integer : ∀ i, p (.integer i)) (bytes : ∀ b, p (.bytes b))
    (string : ∀ s, p (.string s)) (list : ∀ items, (∀ v ∈ items, p v) → p (.list items))
    (dict : ∀ entries, (∀ e ∈ entries, p e.2) → p (.dict entries)) (v : Value) : p v :=
  @Value.rec p (fun items => ∀ v ∈ items, p v) (fun entries => ∀ e ∈ entries, p e.2)
    (fun e => p e.2) integer bytes string list dict
    (fun _ h => absurd h List.not_mem_nil)
    (fun _ _ hhead htail => List.forall_mem_cons.mpr ⟨hhead, htail⟩)
    (fun _ h => absurd h List.not_mem_nil)
    (fun _ _ hhead htail => List.forall_mem_cons.mpr ⟨hhead, htail⟩)
    (fun _ _ h => h) v

end Value

namespace Encoder

variable (e : Encoder)

theorem writeByte_data (b : UInt8) : (e.writeByte b).data = e.data ++ [b] := rfl

theorem writeInteger_data (i : ℤ) :
    (e.writeInteger i).data = e.data ++ 105 :: (intNumeral i ++ [101]) := by
  simp [writeInteger, writeNumber, write, writeByte]

theorem writeBytes_data (b : Bytes) : (e.writeBytes b).data = e.data ++ printString b := by
  simp [writeBytes, writeNumber, write, writeByte, printString, intNumeral_ofNat]

theorem writeStr_data (s : String) : (e.writeStr s).data = e.data ++ printString (asBytes s) :=
  e.writeBytes_data (asBytes s)

end Encoder

theorem writeList_data {items : List Value}
    (h : ∀ v ∈ items, ∀ e : Encoder, (v.encode e).data = e.data ++ v.toTree.print) (e : Encoder) :
    (writeList e items).data = e.data ++ printItems (treeItems items) := by
  induction items generalizing e with
  | nil => simp [writeList, treeItems, printItems]
  | cons v items ih =>
    obtain ⟨hhead, htail⟩ := List.forall_mem_cons.mp h
    rw [writeList, ih htail, hhead, treeItems, printItems, List.append_assoc]

theorem writeDict_data {entries : List (String × Value)}
    (h : ∀ x ∈ entries, ∀ e : Encoder, (x.2.encode e).data = e.data ++ x.2.toTree.print)
    (e : Encoder) :
    (writeDict e entries).data = e.data ++ printEntries (treeValues entries) := by
  induction entries generalizing e with
  | nil => simp [writeDict, treeValues, printEntries]
  | cons x entries ih =>
    obtain ⟨key, v⟩ := x
    obtain ⟨hhead, htail⟩ := List.forall_mem_cons.mp h
    rw [writeDict, ih htail, hhead, Encoder.writeStr_data, treeValues, printEntries,
      List.append_assoc, List.append_assoc]

/-- The encoder appends the tree of the value. -/
theorem Value.encode_data (v : Value) (e : Encoder) :
    (v.encode e).data = e.data ++ v.toTree.print := by
  induction v using Value.induct generalizing e with
  | integer i => rw [encode, Encoder.writeInteger_data, toTree, Tree.print]
  | bytes b => rw [encode, Encoder.writeBytes_data, toTree, Tree.print]
  | string s => rw [encode, Encoder.writeStr_data, toTree, Tree.print]
  | list items ih =>
    rw [encode, Encoder.writeByte_data, writeList_data ih, Encoder.writeByte_data, toTree,
      Tree.print, List.append_assoc, List.append_assoc]
    rfl
  | dict entries ih =>
    rw [encode, Encoder.writeByte_data, writeDict_data ih, Encoder.writeByte_data, toTree,
      Tree.print, List.append_assoc, List.append_assoc]
    rfl

/-- The bytes that a new encoder holds after the value. -/
def Value.encoded (v : Value) : Bytes := (v.encode Encoder.new).data

theorem Value.encoded_eq (v : Value) : v.encoded = v.toTree.print := v.encode_data Encoder.new

end TorrentClient
