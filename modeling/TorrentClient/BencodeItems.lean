import TorrentClient.BencodeTrees

/-!
# Bencoded items

The concrete syntax of bencoded data: an item keeps how its integers are spelled and the
entries of its dictionaries in the order they are written. No item starts as another one does
and goes on, so that the bytes of a stream determine the item they begin with. An item whose
integers are spelled as their numerals and whose keys ascend is a sorted tree.
-/
namespace Bencode
open DecimalNumerals

inductive Item where
  | integer (token : List UInt8)
  | string (bytes : List UInt8)
  | list (items : List Item)
  | dict (entries : List (List UInt8 × Item))

mutual

def Item.spell : Item → List UInt8
  | .integer token => 105 :: (token ++ [101])
  | .string bytes => printString bytes
  | .list items => 108 :: (spellItems items ++ [101])
  | .dict entries => 100 :: (spellEntries entries ++ [101])

def spellItems : List Item → List UInt8
  | [] => []
  | i :: items => i.spell ++ spellItems items

def spellEntries : List (List UInt8 × Item) → List UInt8
  | [] => []
  | (key, i) :: entries => printString key ++ (i.spell ++ spellEntries entries)

end

mutual

/-- The item and what it is made of have a property. -/
def Item.All (p : Item → Prop) : Item → Prop
  | .integer token => p (.integer token)
  | .string bytes => p (.string bytes)
  | .list items => p (.list items) ∧ AllItems p items
  | .dict entries => p (.dict entries) ∧ AllEntries p entries

def AllItems (p : Item → Prop) : List Item → Prop
  | [] => True
  | i :: items => i.All p ∧ AllItems p items

def AllEntries (p : Item → Prop) : List (List UInt8 × Item) → Prop
  | [] => True
  | (_, i) :: entries => i.All p ∧ AllEntries p entries

end

namespace Item

/-- The integers are spelled in some way. -/
def Tokens (p : List UInt8 → Prop) : Item → Prop := All fun
  | .integer token => p token
  | _ => True

/-- The keys of every dictionary are strictly ascending. -/
def Ascending : Item → Prop := All fun
  | .dict entries => entries.Pairwise fun a b => a.1 < b.1
  | _ => True

theorem induct {p : Item → Prop} (integer : ∀ token, p (.integer token))
    (string : ∀ bytes, p (.string bytes))
    (list : ∀ items, (∀ i ∈ items, p i) → p (.list items))
    (dict : ∀ entries, (∀ e ∈ entries, p e.2) → p (.dict entries)) (i : Item) : p i :=
  @Item.rec p (fun items => ∀ i ∈ items, p i) (fun entries => ∀ e ∈ entries, p e.2)
    (fun e => p e.2) integer string list dict
    (fun _ h => absurd h List.not_mem_nil)
    (fun _ _ hhead htail => List.forall_mem_cons.mpr ⟨hhead, htail⟩)
    (fun _ h => absurd h List.not_mem_nil)
    (fun _ _ hhead htail => List.forall_mem_cons.mpr ⟨hhead, htail⟩)
    (fun _ _ h => h) i

end Item

theorem allItems_iff {p : Item → Prop} {items : List Item} :
    AllItems p items ↔ ∀ i ∈ items, i.All p := by
  induction items with
  | nil => simp [AllItems]
  | cons i items ih => rw [AllItems, ih, List.forall_mem_cons]

theorem allEntries_iff {p : Item → Prop} {entries : List (List UInt8 × Item)} :
    AllEntries p entries ↔ ∀ e ∈ entries, e.2.All p := by
  induction entries with
  | nil => simp [AllEntries]
  | cons e entries ih => rw [AllEntries, ih, List.forall_mem_cons]

theorem spellItems_eq_flatten (items : List Item) :
    spellItems items = (items.map Item.spell).flatten := by
  induction items with
  | nil => rfl
  | cons i items ih => rw [spellItems, ih, List.map_cons, List.flatten_cons]

theorem spellEntries_eq_flatten (entries : List (List UInt8 × Item)) :
    spellEntries entries = (entries.map fun e => printString e.1 ++ e.2.spell).flatten := by
  induction entries with
  | nil => rfl
  | cons e entries ih => rw [spellEntries, ih, List.map_cons, List.flatten_cons, List.append_assoc]

theorem length_spell_le_items {items : List Item} {i : Item} (h : i ∈ items) :
    i.spell.length ≤ (spellItems items).length := by
  rw [spellItems_eq_flatten]
  exact length_le_flatten_of_mem (List.mem_map_of_mem h)

theorem length_spell_le_entries {entries : List (List UInt8 × Item)} {e : List UInt8 × Item}
    (h : e ∈ entries) : e.2.spell.length ≤ (spellEntries entries).length := by
  have hle := length_le_flatten_of_mem
    (List.mem_map_of_mem (f := fun e : List UInt8 × Item => printString e.1 ++ e.2.spell) h)
  rw [← spellEntries_eq_flatten, List.length_append] at hle
  omega

/-- Two texts up to the first end marker are the same. -/
theorem append_cons_inj {α : Type} {c : α} {xs ys r r' : List α} (hx : c ∉ xs) (hy : c ∉ ys)
    (h : xs ++ c :: r = ys ++ c :: r') : xs = ys ∧ r = r' := by
  induction xs generalizing ys with
  | nil =>
    cases ys with
    | nil => exact ⟨rfl, (List.cons.inj h).2⟩
    | cons y ys => exact absurd ((List.cons.inj h).1 ▸ List.mem_cons_self) hy
  | cons x xs ih =>
    rw [List.mem_cons, not_or] at hx
    cases ys with
    | nil => exact absurd (List.cons.inj h).1.symm hx.1
    | cons y ys =>
      rw [List.mem_cons, not_or] at hy
      obtain ⟨rfl, hrest⟩ := List.cons.inj h
      obtain ⟨rfl, rfl⟩ := ih hx.2 hy.2 hrest
      exact ⟨rfl, rfl⟩

theorem printString_append_inj {bytes bytes' r r' : List UInt8}
    (h : printString bytes ++ r = printString bytes' ++ r') : bytes = bytes' ∧ r = r' := by
  have hcolon : ∀ n, (58 : UInt8) ∉ numeral n := by
    intro n hmem
    cases isDigit_of_mem_numeral hmem
  rw [printString, printString, List.append_assoc, List.append_assoc, List.cons_append,
    List.cons_append] at h
  obtain ⟨hlen, hrest⟩ := append_cons_inj (hcolon _) (hcolon _) h
  exact List.append_inj hrest (numeral_injective hlen)

/-- A string starts with no byte that is not a digit. -/
theorem printString_append_ne (bytes r r' : List UInt8) {c : UInt8} (hc : isDigit c = false) :
    printString bytes ++ r ≠ c :: r' := by
  obtain ⟨b, hb, hne⟩ := head?_printString_ne bytes hc
  intro h
  have hhead := congrArg List.head? h
  rw [List.head?_append, hb] at hhead
  exact hne (Option.some.inj hhead)

/-- An item starts with no end marker. -/
theorem Item.spell_append_ne (i : Item) (r r' : List UInt8) : i.spell ++ r ≠ 101 :: r' := by
  cases i with
  | string bytes => exact printString_append_ne bytes r r' rfl
  | _ => exact fun h => absurd (List.cons.inj h).1 (by decide)

namespace Item

/-- The integers do not run on behind their end. -/
abbrev Delimited : Item → Prop := Tokens fun token => 101 ∉ token

/-- The item is read off any bytes that start with it. -/
def Readable (i : Item) : Prop :=
  ∀ j : Item, i.Delimited → j.Delimited → ∀ r r', i.spell ++ r = j.spell ++ r' → i = j ∧ r = r'

end Item

theorem spellItems_inj {items items' : List Item} {r r' : List UInt8}
    (hread : ∀ i ∈ items, i.Readable) (hi : ∀ i ∈ items, i.Delimited)
    (hj : ∀ i ∈ items', i.Delimited)
    (h : spellItems items ++ 101 :: r = spellItems items' ++ 101 :: r') :
    items = items' ∧ r = r' := by
  induction items generalizing items' with
  | nil =>
    cases items' with
    | nil => exact ⟨rfl, (List.cons.inj h).2⟩
    | cons j items' =>
      rw [spellItems, spellItems, List.append_assoc] at h
      exact absurd h.symm (j.spell_append_ne _ _)
  | cons i items ih =>
    cases items' with
    | nil =>
      rw [spellItems, spellItems, List.append_assoc] at h
      exact absurd h (i.spell_append_ne _ _)
    | cons j items' =>
      rw [List.forall_mem_cons] at hread hi hj
      rw [spellItems, spellItems, List.append_assoc, List.append_assoc] at h
      obtain ⟨rfl, hrest⟩ := hread.1 j hi.1 hj.1 _ _ h
      obtain ⟨rfl, rfl⟩ := ih hread.2 hi.2 hj.2 hrest
      exact ⟨rfl, rfl⟩

theorem spellEntries_inj {entries entries' : List (List UInt8 × Item)} {r r' : List UInt8}
    (hread : ∀ e ∈ entries, e.2.Readable) (hi : ∀ e ∈ entries, e.2.Delimited)
    (hj : ∀ e ∈ entries', e.2.Delimited)
    (h : spellEntries entries ++ 101 :: r = spellEntries entries' ++ 101 :: r') :
    entries = entries' ∧ r = r' := by
  induction entries generalizing entries' with
  | nil =>
    cases entries' with
    | nil => exact ⟨rfl, (List.cons.inj h).2⟩
    | cons e entries' =>
      rw [spellEntries, spellEntries, List.append_assoc] at h
      exact absurd h.symm (printString_append_ne _ _ _ rfl)
  | cons e entries ih =>
    cases entries' with
    | nil =>
      rw [spellEntries, spellEntries, List.append_assoc] at h
      exact absurd h (printString_append_ne _ _ _ rfl)
    | cons e' entries' =>
      obtain ⟨key, i⟩ := e
      obtain ⟨key', j⟩ := e'
      rw [List.forall_mem_cons] at hread hi hj
      simp only [spellEntries, List.append_assoc] at h
      obtain ⟨rfl, hvalue⟩ := printString_append_inj h
      obtain ⟨rfl, hrest⟩ := hread.1 j hi.1 hj.1 _ _ hvalue
      obtain ⟨rfl, rfl⟩ := ih hread.2 hi.2 hj.2 hrest
      exact ⟨rfl, rfl⟩

/-- No item starts as another one does and goes on. -/
theorem Item.readable (i : Item) : i.Readable := by
  induction i using Item.induct with
  | integer token =>
    intro j hi hj r r' h
    cases j with
    | integer token' =>
      simp only [spell, List.cons_append, List.append_assoc, List.cons.injEq, true_and,
        List.nil_append] at h
      obtain ⟨rfl, rfl⟩ := append_cons_inj hi hj h
      exact ⟨rfl, rfl⟩
    | string bytes => exact absurd h.symm (printString_append_ne _ _ _ rfl)
    | _ => exact absurd (List.cons.inj h).1 (by decide)
  | string bytes =>
    intro j hi hj r r' h
    cases j with
    | string bytes' =>
      obtain ⟨rfl, rfl⟩ := printString_append_inj h
      exact ⟨rfl, rfl⟩
    | _ => exact absurd h (printString_append_ne _ _ _ rfl)
  | list items ih =>
    intro j hi hj r r' h
    cases j with
    | list items' =>
      simp only [spell, List.cons_append, List.append_assoc, List.cons.injEq, true_and,
        List.nil_append] at h
      obtain ⟨rfl, rfl⟩ := spellItems_inj ih (allItems_iff.mp hi.2) (allItems_iff.mp hj.2) h
      exact ⟨rfl, rfl⟩
    | string bytes => exact absurd h.symm (printString_append_ne _ _ _ rfl)
    | _ => exact absurd (List.cons.inj h).1 (by decide)
  | dict entries ih =>
    intro j hi hj r r' h
    cases j with
    | dict entries' =>
      simp only [spell, List.cons_append, List.append_assoc, List.cons.injEq, true_and,
        List.nil_append] at h
      obtain ⟨rfl, rfl⟩ := spellEntries_inj ih (allEntries_iff.mp hi.2) (allEntries_iff.mp hj.2) h
      exact ⟨rfl, rfl⟩
    | string bytes => exact absurd h.symm (printString_append_ne _ _ _ rfl)
    | _ => exact absurd (List.cons.inj h).1 (by decide)

/-- The integers are spelled as their numerals. -/
abbrev Item.Decimal : Item → Prop := Item.Tokens fun token => ∃ i, token = intNumeral i

theorem trees_of_items {items : List Item}
    (h : ∀ i ∈ items, ∃ t : Tree, t.Sorted ∧ t.print = i.spell) :
    ∃ trees, SortedItems trees ∧ printItems trees = spellItems items := by
  induction items with
  | nil => exact ⟨[], trivial, rfl⟩
  | cons i items ih =>
    rw [List.forall_mem_cons] at h
    obtain ⟨t, hs, ht⟩ := h.1
    obtain ⟨trees, hsorted, htrees⟩ := ih h.2
    exact ⟨t :: trees, ⟨hs, hsorted⟩, by rw [printItems, spellItems, ht, htrees]⟩

theorem trees_of_entries {entries : List (List UInt8 × Item)}
    (h : ∀ e ∈ entries, ∃ t : Tree, t.Sorted ∧ t.print = e.2.spell) :
    ∃ es : List (List UInt8 × Tree), es.map Prod.fst = entries.map Prod.fst ∧ SortedEntries es ∧
      printEntries es = spellEntries entries := by
  induction entries with
  | nil => exact ⟨[], rfl, trivial, rfl⟩
  | cons e entries ih =>
    obtain ⟨key, i⟩ := e
    rw [List.forall_mem_cons] at h
    obtain ⟨t, hs, ht⟩ := h.1
    obtain ⟨es, hkeys, hsorted, hes⟩ := ih h.2
    refine ⟨(key, t) :: es, ?_, ⟨hs, hsorted⟩, by rw [printEntries, spellEntries, ht, hes]⟩
    rw [List.map_cons, List.map_cons, hkeys]

/-- An item in canonical form is a sorted tree. -/
theorem Item.tree_of_canonical {i : Item} (ha : i.Ascending) (hd : i.Decimal) :
    ∃ t : Tree, t.Sorted ∧ t.print = i.spell := by
  induction i using Item.induct with
  | integer token =>
    obtain ⟨n, rfl⟩ := hd
    exact ⟨.integer n, trivial, rfl⟩
  | string bytes => exact ⟨.string bytes, trivial, rfl⟩
  | list items ih =>
    have hitems : ∀ i ∈ items, ∃ t : Tree, t.Sorted ∧ t.print = i.spell := fun i hi =>
      ih i hi (allItems_iff.mp ha.2 i hi) (allItems_iff.mp hd.2 i hi)
    obtain ⟨trees, hsorted, htrees⟩ := trees_of_items hitems
    exact ⟨.list trees, hsorted, by rw [Tree.print, spell, htrees]⟩
  | dict entries ih =>
    have hvalues : ∀ e ∈ entries, ∃ t : Tree, t.Sorted ∧ t.print = e.2.spell := fun e he =>
      ih e he (allEntries_iff.mp ha.2 e he) (allEntries_iff.mp hd.2 e he)
    obtain ⟨es, hkeys, hsorted, hes⟩ := trees_of_entries hvalues
    refine ⟨.dict es, ⟨?_, hsorted⟩, by rw [Tree.print, spell, hes]⟩
    have hkeysSorted : (entries.map Prod.fst).Pairwise (· < ·) := List.pairwise_map.mpr ha.1
    rw [← hkeys] at hkeysSorted
    exact List.pairwise_map.mp hkeysSorted

end Bencode
