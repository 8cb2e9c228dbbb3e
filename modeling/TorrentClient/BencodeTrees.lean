import TorrentClient.DecimalNumerals
import Mathlib.Order.RelClasses

/-!
# Bencoded trees

The abstract syntax of bencoded data: integers of any size, byte strings, lists, and
dictionaries as their entries in the order they are written. `Tree.print` writes a tree
and `Tree.Sorted` says that the keys of its dictionaries are strictly ascending.
-/
namespace Bencode
open DecimalNumerals

inductive Tree where
  | integer (i : ℤ)
  | string (bytes : List UInt8)
  | list (items : List Tree)
  | dict (entries : List (List UInt8 × Tree))

/-- The length of a byte string, a colon and its bytes. -/
def printString (bytes : List UInt8) : List UInt8 := numeral bytes.length ++ 58 :: bytes

mutual

def Tree.print : Tree → List UInt8
  | .integer i => 105 :: (intNumeral i ++ [101])
  | .string bytes => printString bytes
  | .list items => 108 :: (printItems items ++ [101])
  | .dict entries => 100 :: (printEntries entries ++ [101])

def printItems : List Tree → List UInt8
  | [] => []
  | t :: items => t.print ++ printItems items

def printEntries : List (List UInt8 × Tree) → List UInt8
  | [] => []
  | (key, t) :: entries => printString key ++ (t.print ++ printEntries entries)

end

mutual

/-- The keys of every dictionary are strictly ascending. -/
def Tree.Sorted : Tree → Prop
  | .integer _ => True
  | .string _ => True
  | .list items => SortedItems items
  | .dict entries => (entries.Pairwise fun a b => a.1 < b.1) ∧ SortedEntries entries

def SortedItems : List Tree → Prop
  | [] => True
  | t :: items => t.Sorted ∧ SortedItems items

def SortedEntries : List (List UInt8 × Tree) → Prop
  | [] => True
  | (_, t) :: entries => t.Sorted ∧ SortedEntries entries

end

/-- The value of a key, where the tree is a dictionary. -/
def Tree.lookup (key : List UInt8) : Tree → Option Tree
  | .dict entries => entries.lookup key
  | _ => none

/-- Induction on a tree, with the hypothesis for every item of a list and every value of a
dictionary. -/
theorem Tree.induct {p : Tree → Prop} (integer : ∀ i, p (.integer i))
    (string : ∀ bytes, p (.string bytes))
    (list : ∀ items, (∀ t ∈ items, p t) → p (.list items))
    (dict : ∀ entries, (∀ e ∈ entries, p e.2) → p (.dict entries)) (t : Tree) : p t :=
  @Tree.rec p (fun items => ∀ t ∈ items, p t) (fun entries => ∀ e ∈ entries, p e.2)
    (fun e => p e.2) integer string list dict
    (fun _ h => absurd h List.not_mem_nil)
    (fun _ _ hhead htail => List.forall_mem_cons.mpr ⟨hhead, htail⟩)
    (fun _ h => absurd h List.not_mem_nil)
    (fun _ _ hhead htail => List.forall_mem_cons.mpr ⟨hhead, htail⟩)
    (fun _ _ h => h) t

theorem head?_printString (bytes : List UInt8) :
    ∃ b, (printString bytes).head? = some b ∧ isDigit b = true := by
  cases hn : numeral bytes.length with
  | nil => exact absurd hn (numeral_ne_nil _)
  | cons b digits =>
    refine ⟨b, by rw [printString, hn]; rfl, ?_⟩
    apply isDigit_of_mem_numeral
    rw [hn]
    exact List.mem_cons_self

theorem printString_ne_nil (bytes : List UInt8) : printString bytes ≠ [] := by
  rw [printString, ne_eq, List.append_eq_nil_iff]
  exact fun h => List.cons_ne_nil _ _ h.2

/-- What a printed string starts with is none of the other bytes. -/
theorem head?_printString_ne (bytes : List UInt8) {c : UInt8} (hc : isDigit c = false) :
    ∃ b, (printString bytes).head? = some b ∧ b ≠ c := by
  obtain ⟨b, hb, hdigit⟩ := head?_printString bytes
  refine ⟨b, hb, ?_⟩
  rintro rfl
  cases hdigit.symm.trans hc

/-- What a tree starts with is no end marker. -/
theorem Tree.head?_print (t : Tree) : ∃ b, t.print.head? = some b ∧ b ≠ 101 := by
  cases t with
  | string bytes => exact head?_printString_ne bytes rfl
  | _ => exact ⟨_, rfl, by decide⟩

theorem length_le_flatten {α : Type} {chunks : List (List α)} (h : ∀ c ∈ chunks, c ≠ []) :
    chunks.length ≤ chunks.flatten.length := by
  induction chunks with
  | nil => exact Nat.zero_le _
  | cons c chunks ih =>
    obtain ⟨hhead, htail⟩ := List.forall_mem_cons.mp h
    have hpos := List.length_pos_of_ne_nil hhead
    have hrest := ih htail
    rw [List.flatten_cons, List.length_append, List.length_cons]
    omega

theorem length_le_flatten_of_mem {α : Type} {chunks : List (List α)} {c : List α}
    (h : c ∈ chunks) : c.length ≤ chunks.flatten.length :=
  (List.sublist_flatten_of_mem h).length_le

theorem printItems_eq_flatten (items : List Tree) :
    printItems items = (items.map Tree.print).flatten := by
  induction items with
  | nil => rfl
  | cons t items ih => rw [printItems, ih, List.map_cons, List.flatten_cons]

/-- A key and its value as they are written. -/
def printEntry (e : List UInt8 × Tree) : List UInt8 := printString e.1 ++ e.2.print

theorem printEntries_eq_flatten (entries : List (List UInt8 × Tree)) :
    printEntries entries = (entries.map printEntry).flatten := by
  induction entries with
  | nil => rfl
  | cons e entries ih =>
    rw [printEntries, ih, List.map_cons, List.flatten_cons, printEntry, List.append_assoc]

theorem Tree.length_print_pos (t : Tree) : 0 < t.print.length := by
  obtain ⟨b, hb, -⟩ := t.head?_print
  apply List.length_pos_of_ne_nil
  rintro hnil
  rw [hnil] at hb
  cases hb

theorem length_entries_le (entries : List (List UInt8 × Tree)) :
    entries.length ≤ (printEntries entries).length := by
  induction entries with
  | nil => exact Nat.zero_le _
  | cons e entries ih =>
    have hpos := e.2.length_print_pos
    rw [printEntries, List.length_append, List.length_append, List.length_cons]
    omega

theorem length_print_le_items {items : List Tree} {t : Tree} (h : t ∈ items) :
    t.print.length ≤ (printItems items).length := by
  induction items with
  | nil => cases h
  | cons t' items ih =>
    rw [printItems, List.length_append]
    rcases List.mem_cons.mp h with rfl | h
    · exact Nat.le_add_right _ _
    · exact Nat.le_trans (ih h) (Nat.le_add_left _ _)

theorem length_print_le_entries {entries : List (List UInt8 × Tree)} {e : List UInt8 × Tree}
    (h : e ∈ entries) : e.2.print.length ≤ (printEntries entries).length := by
  induction entries with
  | nil => cases h
  | cons e' entries ih =>
    rw [printEntries, List.length_append, List.length_append]
    rcases List.mem_cons.mp h with rfl | h
    · omega
    · have := ih h
      omega

theorem printEntries_of_lookup {entries : List (List UInt8 × Tree)} {key : List UInt8} {t : Tree}
    (h : entries.lookup key = some t) :
    ∃ before after, printEntries entries = before ++ printString key ++ t.print ++ after := by
  induction entries with
  | nil => cases h
  | cons e entries ih =>
    obtain ⟨key', t'⟩ := e
    rw [List.lookup_cons] at h
    by_cases hkey : key = key'
    · subst hkey
      rw [beq_self_eq_true] at h
      cases h
      exact ⟨[], printEntries entries, by rw [printEntries, List.nil_append, List.append_assoc]⟩
    · rw [beq_false_of_ne hkey] at h
      obtain ⟨before, after, hprint⟩ := ih h
      refine ⟨printString key' ++ (t'.print ++ before), after, ?_⟩
      rw [printEntries, hprint]
      simp only [List.append_assoc]

/-- The print of a dictionary has that of a key's value behind the key. -/
theorem Tree.print_of_lookup {t sub : Tree} {key : List UInt8} (h : t.lookup key = some sub) :
    ∃ before after, t.print = before ++ printString key ++ sub.print ++ after := by
  cases t with
  | dict entries =>
    obtain ⟨before, after, hprint⟩ := printEntries_of_lookup h
    refine ⟨100 :: before, after ++ [101], ?_⟩
    rw [Tree.print, hprint]
    simp only [List.cons_append, List.append_assoc]
  | _ => cases h

end Bencode
