import Mathlib.Data.List.TakeWhile

/-!
# Query strings

The query of a text is what follows its first mark; it is cut into fields at one separator
and every field at another one. Fields that hold none of these are found again in the query
they are joined to.
-/
namespace QueryStrings

variable {α : Type*}

/-- A name with its value. -/
def field (eq : α) (param : List α × List α) : List α := param.1 ++ eq :: param.2

def join (sep eq : α) (params : List (List α × List α)) : List α :=
  [sep].intercalate (params.map (field eq))

variable {mark sep eq : α} {text : List α} {params : List (List α × List α)}

theorem join_ne_nil (hne : params ≠ []) : join sep eq params ≠ [] := by
  cases params with
  | nil => exact absurd rfl hne
  | cons param params =>
    cases params with
    | nil => simp [join, field]
    | cons param' params => simp [join, field]

/-- The text holds none of the three. -/
def Plain (mark sep eq : α) (text : List α) : Prop := mark ∉ text ∧ sep ∉ text ∧ eq ∉ text

variable [DecidableEq α]

/-- A query is empty, or cut at `sep` and then at `eq`. -/
def fields (sep eq : α) (text : List α) : List (List (List α)) :=
  if text = [] then [] else (text.splitOn sep).map (List.splitOn eq)

/-- The fields after the first `mark`. -/
def query (mark sep eq : α) (text : List α) : List (List (List α)) :=
  fields sep eq (text.dropWhile (· ≠ mark)).tail

theorem splitOn_field {param : List α × List α} (hname : eq ∉ param.1) (hvalue : eq ∉ param.2) :
    (field eq param).splitOn eq = [param.1, param.2] := by
  rw [field, List.splitOn_append_cons_self_of_not_mem hname, List.splitOn_eq_singleton hvalue]

theorem fields_join (hsep : sep ≠ eq) (hne : params ≠ [])
    (hplain : ∀ param ∈ params, Plain mark sep eq param.1 ∧ Plain mark sep eq param.2) :
    fields sep eq (join sep eq params) = params.map fun param => [param.1, param.2] := by
  have hfields : ∀ text ∈ params.map (field eq), sep ∉ text := by
    intro text htext
    obtain ⟨param, hparam, rfl⟩ := List.mem_map.mp htext
    obtain ⟨hname, hvalue⟩ := hplain param hparam
    simp [field, hname.2.1, hvalue.2.1, hsep]
  rw [fields, if_neg (join_ne_nil hne), join, List.splitOn_intercalate sep hfields (by simpa using hne),
    List.map_map]
  apply List.map_congr_left
  intro param hparam
  obtain ⟨hname, hvalue⟩ := hplain param hparam
  exact splitOn_field hname.2.2 hvalue.2.2

theorem query_append_of_notMem (h : mark ∉ text) (rest : List α) :
    query mark sep eq (text ++ mark :: rest) = fields sep eq rest := by
  have hdrop : (text ++ mark :: rest).dropWhile (· ≠ mark) = mark :: rest := by
    rw [List.dropWhile_append_of_pos]
    · simp
    · intro c hc
      simpa using ne_of_mem_of_not_mem hc h
  rw [query, hdrop, List.tail_cons]

theorem query_of_notMem (h : mark ∉ text) : query mark sep eq text = [] := by
  have hdrop : text.dropWhile (· ≠ mark) = [] := by
    rw [List.dropWhile_eq_nil_iff]
    intro c hc
    simpa using ne_of_mem_of_not_mem hc h
  rw [query, hdrop, List.tail_nil, fields, if_pos rfl]

theorem count_intercalate {c : α} (h : c ≠ sep) (texts : List (List α)) :
    ([sep].intercalate texts).count c = texts.flatten.count c := by
  induction texts with
  | nil => rfl
  | cons text texts ih =>
    cases texts with
    | nil => simp
    | cons text' texts =>
      rw [List.intercalate_cons_cons, List.count_append, List.count_append, ih,
        List.flatten_cons, List.count_append, List.count_singleton]
      simp [h.symm]

/-- How often a character stands in the fields. -/
def occurrences (c : α) (fields : List (List (List α))) : ℕ := fields.flatten.flatten.count c

theorem occurrences_append (c : α) (fields fields' : List (List (List α))) :
    occurrences c (fields ++ fields') = occurrences c fields + occurrences c fields' := by
  rw [occurrences, List.flatten_append, List.flatten_append, List.count_append, occurrences,
    occurrences]

theorem occurrences_map_splitOn (heq : mark ≠ eq) (parts : List (List α)) :
    occurrences mark (parts.map (List.splitOn eq)) = parts.flatten.count mark := by
  induction parts with
  | nil => rfl
  | cons part parts ih =>
    rw [occurrences] at ih
    rw [occurrences, List.map_cons, List.flatten_cons, List.flatten_append, List.count_append, ih,
      ← count_intercalate heq, List.intercalate_splitOn, List.flatten_cons, List.count_append]

/-- Only the separators are lost. -/
theorem occurrences_fields (hsep : mark ≠ sep) (heq : mark ≠ eq) (text : List α) :
    occurrences mark (fields sep eq text) = text.count mark := by
  rw [fields]
  split_ifs with hnil
  · subst hnil
    rfl
  · rw [occurrences_map_splitOn heq, ← count_intercalate hsep, List.intercalate_splitOn]

theorem occurrences_params
    (hplain : ∀ param ∈ params, Plain mark sep eq param.1 ∧ Plain mark sep eq param.2) :
    occurrences mark (params.map fun param => [param.1, param.2]) = 0 := by
  apply List.count_eq_zero_of_not_mem
  intro hmem
  obtain ⟨text, htext, hmark⟩ := List.mem_flatten.mp hmem
  obtain ⟨texts, htexts, htext⟩ := List.mem_flatten.mp htext
  obtain ⟨param, hparam, rfl⟩ := List.mem_map.mp htexts
  obtain ⟨hname, hvalue⟩ := hplain param hparam
  have hpair : text = param.1 ∨ text = param.2 := by simpa using htext
  rcases hpair with rfl | rfl
  · exact hname.1 hmark
  · exact hvalue.1 hmark

theorem count_join (hsep : mark ≠ sep) (heq : mark ≠ eq) (hsepeq : sep ≠ eq) (hne : params ≠ [])
    (hplain : ∀ param ∈ params, Plain mark sep eq param.1 ∧ Plain mark sep eq param.2) :
    (join sep eq params).count mark = 0 := by
  rw [← occurrences_fields hsep heq, fields_join hsepeq hne hplain, occurrences_params hplain]

/-- Parameters that are joined to a text with another mark are found after the fields of the
text just where the text has no mark: otherwise that mark is left in a field. -/
theorem query_append_iff (hsep : mark ≠ sep) (heq : mark ≠ eq) (hsepeq : sep ≠ eq)
    (hne : params ≠ [])
    (hplain : ∀ param ∈ params, Plain mark sep eq param.1 ∧ Plain mark sep eq param.2) :
    query mark sep eq (text ++ mark :: join sep eq params) =
        query mark sep eq text ++ params.map (fun param => [param.1, param.2]) ↔
      mark ∉ text := by
  constructor
  · intro h hmem
    obtain ⟨before, after, rfl, hbefore⟩ := List.eq_append_cons_of_mem hmem
    rw [List.append_assoc, List.cons_append, query_append_of_notMem hbefore,
      query_append_of_notMem hbefore] at h
    have hcount := congrArg (occurrences mark) h
    rw [occurrences_append, occurrences_params hplain, occurrences_fields hsep heq,
      occurrences_fields hsep heq, List.count_append, List.count_cons_self,
      count_join hsep heq hsepeq hne hplain] at hcount
    omega
  · intro h
    rw [query_append_of_notMem h, query_of_notMem h, fields_join hsepeq hne hplain, List.nil_append]

end QueryStrings
