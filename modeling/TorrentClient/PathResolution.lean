import Mathlib.Data.List.Basic

/-!
# Paths with parent references

A path is a list of segments, of which some are skipped and some go up to the parent. It is
resolved with a stack of names; a segment that goes up at the bottom of the stack leaves the
directory where the path starts. Which names are left is described by counting: a name stays
where no beginning of what follows it goes up more often than it goes down.
-/
namespace PathResolution

inductive Kind where
  | skip
  | up
  | name
  deriving DecidableEq

variable {σ : Type*} (kind : σ → Kind)

/-- How often the path has left the start, and the names it went down since, the last first. -/
def step : ℕ × List σ → σ → ℕ × List σ
  | (out, stack), s =>
    match kind s, stack with
    | .skip, _ => (out, stack)
    | .up, [] => (out + 1, [])
    | .up, _ :: stack => (out, stack)
    | .name, _ => (out, s :: stack)

/-- The parents that the path goes up from its start and the names it then goes down. -/
def resolve (path : List σ) : ℕ × List σ :=
  let (out, stack) := path.foldl (step kind) (0, [])
  (out, stack.reverse)

/-- How many names before the path it goes up. -/
def deficit : List σ → ℕ
  | [] => 0
  | s :: path =>
    match kind s with
    | .skip => deficit path
    | .up => deficit path + 1
    | .name => deficit path - 1

/-- The names that the rest of the path does not go up again. -/
def kept : List σ → List σ
  | [] => []
  | s :: path => if kind s = .name ∧ deficit kind path = 0 then s :: kept path else kept path

variable {kind} {path before after : List σ} {s root : σ}

theorem step_skip (h : kind s = .skip) (out : ℕ) (stack : List σ) :
    step kind (out, stack) s = (out, stack) := by
  simp [step, h]

theorem step_up_nil (h : kind s = .up) (out : ℕ) : step kind (out, []) s = (out + 1, []) := by
  simp [step, h]

theorem step_up_cons (h : kind s = .up) (out : ℕ) (name : σ) (stack : List σ) :
    step kind (out, name :: stack) s = (out, stack) := by
  simp [step, h]

theorem step_name (h : kind s = .name) (out : ℕ) (stack : List σ) :
    step kind (out, stack) s = (out, s :: stack) := by
  simp [step, h]

theorem deficit_cons_skip (h : kind s = .skip) : deficit kind (s :: path) = deficit kind path := by
  rw [deficit, h]

theorem deficit_cons_up (h : kind s = .up) :
    deficit kind (s :: path) = deficit kind path + 1 := by
  rw [deficit, h]

theorem deficit_cons_name (h : kind s = .name) :
    deficit kind (s :: path) = deficit kind path - 1 := by
  rw [deficit, h]

theorem kept_cons_of_ne (h : kind s ≠ .name) : kept kind (s :: path) = kept kind path := by
  rw [kept, if_neg fun hs => h hs.1]

theorem kept_cons_of_deficit (h : deficit kind path ≠ 0) :
    kept kind (s :: path) = kept kind path := by
  rw [kept, if_neg fun hs => h hs.2]

theorem kept_cons_name (h : kind s = .name) (hpath : deficit kind path = 0) :
    kept kind (s :: path) = s :: kept kind path := by
  rw [kept, if_pos ⟨h, hpath⟩]

theorem foldl_step (path : List σ) (out : ℕ) (stack : List σ) :
    path.foldl (step kind) (out, stack) =
      (out + (deficit kind path - stack.length),
        (kept kind path).reverse ++ stack.drop (deficit kind path)) := by
  induction path generalizing out stack with
  | nil => simp [deficit, kept]
  | cons s path ih =>
    rw [List.foldl_cons]
    cases hs : kind s with
    | skip =>
      rw [step_skip hs, ih, deficit_cons_skip hs, kept_cons_of_ne (by simp [hs])]
    | up =>
      rw [deficit_cons_up hs, kept_cons_of_ne (by simp [hs])]
      cases stack with
      | nil =>
        rw [step_up_nil hs, ih]
        simp only [List.length_nil, List.drop_nil, Prod.mk.injEq, and_true]
        omega
      | cons name stack =>
        rw [step_up_cons hs, ih, List.length_cons, List.drop_succ_cons, Nat.add_sub_add_right]
    | name =>
      rw [step_name hs, ih, deficit_cons_name hs]
      cases hpath : deficit kind path with
      | zero => simp [kept_cons_name hs hpath]
      | succ d =>
        rw [kept_cons_of_deficit (by simp [hpath]), List.length_cons, List.drop_succ_cons]
        simp

variable (kind) in
theorem resolve_eq (path : List σ) : resolve kind path = (deficit kind path, kept kind path) := by
  simp [resolve, foldl_step]

theorem resolve_append (before : List σ) (hafter : deficit kind after = 0) :
    deficit kind (before ++ after) = deficit kind before ∧
      kept kind (before ++ after) = kept kind before ++ kept kind after := by
  have h := resolve_eq kind (before ++ after)
  rw [resolve, List.foldl_append, foldl_step, foldl_step, hafter] at h
  simp only [List.drop_nil, List.append_nil, List.drop_zero, List.length_nil, Nat.sub_zero,
    Nat.zero_sub, Nat.zero_add, Nat.add_zero, List.reverse_append, List.reverse_reverse,
    Prod.mk.injEq] at h
  exact ⟨h.1.symm, h.2.symm⟩

variable (kind) in
def ups (path : List σ) : ℕ := path.countP fun s => kind s = .up

variable (kind) in
def names (path : List σ) : ℕ := path.countP fun s => kind s = .name

variable (kind) in
/-- No beginning goes up more often than it goes down. -/
def Covered (path : List σ) : Prop := ∀ n, ups kind (path.take n) ≤ names kind (path.take n)

theorem ups_cons (s : σ) (path : List σ) :
    ups kind (s :: path) = ups kind path + if kind s = .up then 1 else 0 := by
  simp [ups, List.countP_cons]

theorem names_cons (s : σ) (path : List σ) :
    names kind (s :: path) = names kind path + if kind s = .name then 1 else 0 := by
  simp [names, List.countP_cons]

theorem deficit_le_iff {d : ℕ} :
    deficit kind path ≤ d ↔ ∀ n, ups kind (path.take n) ≤ names kind (path.take n) + d := by
  induction path generalizing d with
  | nil => simp [deficit, ups, names]
  | cons s path ih =>
    have hnext : (∀ n, ups kind ((s :: path).take n) ≤ names kind ((s :: path).take n) + d) ↔
        ∀ n, ups kind (s :: path.take n) ≤ names kind (s :: path.take n) + d := by
      constructor
      · exact fun h n => h (n + 1)
      · intro h n
        cases n with
        | zero => exact Nat.zero_le _
        | succ n => exact h n
    rw [hnext]
    simp only [ups_cons, names_cons]
    cases hs : kind s with
    | skip =>
      rw [deficit_cons_skip hs, ih]
      simp
    | up =>
      rw [deficit_cons_up hs]
      cases d with
      | zero =>
        constructor
        · intro h
          omega
        · intro h
          exact absurd (h 0) (by simp [ups, names])
      | succ d =>
        rw [Nat.add_le_add_iff_right, ih]
        simp only [if_true, reduceCtorEq, if_false]
        exact forall_congr' fun n => by omega
    | name =>
      rw [deficit_cons_name hs, Nat.sub_le_iff_le_add, ih]
      simp only [if_true, reduceCtorEq, if_false]
      exact forall_congr' fun n => by omega

theorem covered_iff : Covered kind path ↔ deficit kind path = 0 := by
  rw [← Nat.le_zero, deficit_le_iff]
  rfl

theorem covered_of_forall_ne_up (h : ∀ s ∈ path, kind s ≠ .up) : Covered kind path := by
  intro n
  have hzero : ups kind (path.take n) = 0 :=
    List.countP_eq_zero.mpr fun s hs => by simpa using h s (List.mem_of_mem_take hs)
  rw [hzero]
  exact Nat.zero_le _

variable (kind) in
theorem names_add_deficit (path : List σ) :
    names kind path + deficit kind path = ups kind path + (kept kind path).length := by
  induction path with
  | nil => rfl
  | cons s path ih =>
    rw [ups_cons, names_cons]
    cases hs : kind s with
    | skip =>
      rw [deficit_cons_skip hs, kept_cons_of_ne (by simp [hs])]
      simpa using ih
    | up =>
      rw [deficit_cons_up hs, kept_cons_of_ne (by simp [hs])]
      simp only [if_true, reduceCtorEq, if_false]
      omega
    | name =>
      rw [deficit_cons_name hs]
      simp only [if_true, reduceCtorEq, if_false]
      cases hpath : deficit kind path with
      | zero =>
        rw [kept_cons_name hs hpath, List.length_cons]
        omega
      | succ d =>
        rw [kept_cons_of_deficit (by simp [hpath])]
        omega

variable (kind) in
/-- The path leads to something in the directory `root` of its start. -/
def Below (root : σ) (path : List σ) : Prop :=
  ∃ rest, rest ≠ [] ∧ resolve kind path = (0, root :: rest)

variable (kind) in
/-- The path stays in a `root` that it enters: what stands before it comes back to the start
and what stands after it does not go up to the start again. -/
def Enters (root : σ) (path : List σ) : Prop :=
  ∃ before after, path = before ++ root :: after ∧ Covered kind before ∧
    ups kind before = names kind before ∧ Covered kind after

theorem exists_of_kept_eq_cons {rest : List σ} (h : kept kind path = root :: rest) :
    ∃ before after, path = before ++ root :: after ∧ kind root = .name ∧
      kept kind before = [] ∧ deficit kind after = 0 := by
  induction path with
  | nil => cases h
  | cons s path ih =>
    rw [kept] at h
    split_ifs at h with hs
    · obtain ⟨rfl, -⟩ := List.cons.inj h
      exact ⟨[], path, rfl, hs.1, rfl, hs.2⟩
    · obtain ⟨before, after, rfl, hroot, hbefore, hafter⟩ := ih h
      refine ⟨s :: before, after, rfl, hroot, ?_, hafter⟩
      have hdeficit : deficit kind (root :: after) = 0 := by rw [deficit_cons_name hroot, hafter]
      rw [(resolve_append _ hdeficit).1] at hs
      rw [kept, if_neg hs, hbefore]

theorem enters_iff (hroot : kind root = .name) :
    Enters kind root path ↔ deficit kind path = 0 ∧ ∃ rest, kept kind path = root :: rest := by
  constructor
  · rintro ⟨before, after, rfl, hbefore, hcount, hafter⟩
    rw [covered_iff] at hbefore hafter
    have hdeficit : deficit kind (root :: after) = 0 := by rw [deficit_cons_name hroot, hafter]
    have hlength := names_add_deficit kind before
    have hnil : kept kind before = [] := List.eq_nil_of_length_eq_zero (by omega)
    obtain ⟨hout, hkept⟩ := resolve_append before hdeficit
    rw [hnil, kept_cons_name hroot hafter, List.nil_append] at hkept
    exact ⟨hout.trans hbefore, _, hkept⟩
  · rintro ⟨hpath, rest, hrest⟩
    obtain ⟨before, after, rfl, -, hbefore, hafter⟩ := exists_of_kept_eq_cons hrest
    have hdeficit : deficit kind (root :: after) = 0 := by rw [deficit_cons_name hroot, hafter]
    rw [(resolve_append _ hdeficit).1] at hpath
    have hlength := names_add_deficit kind before
    rw [hbefore, hpath, List.length_nil] at hlength
    exact ⟨before, after, rfl, covered_iff.mpr hpath, hlength.symm, covered_iff.mpr hafter⟩

theorem enters_cons (h : Covered kind path) : Enters kind root (root :: path) :=
  ⟨[], path, rfl, fun n => by simp [ups], rfl, h⟩

theorem resolve_append_name (hs : kind s = .name) (path : List σ) :
    resolve kind (path ++ [s]) = (deficit kind path, kept kind path ++ [s]) := by
  have hdeficit : deficit kind [s] = 0 := deficit_cons_name hs
  obtain ⟨hout, hkept⟩ := resolve_append path hdeficit
  rw [resolve_eq, hout, hkept, kept_cons_name hs rfl]
  rfl

/-- A path that ends with a name is below a directory just where the names before the last
one are in it. -/
theorem below_append_name_iff (hroot : kind root = .name) (hs : kind s = .name) :
    Below kind root (path ++ [s]) ↔ Enters kind root path := by
  rw [enters_iff hroot, Below, resolve_append_name hs]
  constructor
  · rintro ⟨rest, hne, heq⟩
    obtain ⟨hout, hkept⟩ := Prod.mk.inj heq
    refine ⟨hout, ?_⟩
    cases hpath : kept kind path with
    | nil =>
      rw [hpath] at hkept
      exact absurd (List.cons.inj hkept).2.symm hne
    | cons name names =>
      rw [hpath] at hkept
      obtain ⟨rfl, -⟩ := List.cons.inj hkept
      exact ⟨names, rfl⟩
  · rintro ⟨hout, rest, hrest⟩
    refine ⟨rest ++ [s], by simp, ?_⟩
    rw [hout, hrest, List.cons_append]

end PathResolution
