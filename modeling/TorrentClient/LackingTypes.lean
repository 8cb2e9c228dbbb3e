import TorrentClient.LackingFields

/-!
# What the types lack

A value lacks a field for the decoder of a structure, an info or a torrent lacks what the
structures in it do, and a list what one of its items does. Where the decoder gets to no files that
fail this is a condition on the tree; else it drifts, and lacks what is lacking where it comes to.
-/
namespace TorrentClient
open Bencode
open Decoder EntryReader

variable {α β : Type}

def FileInfo.Lacks (t : Tree) : Prop := ∃ es, t = .dict es ∧ FieldsLack es

/-- From where the reading of the files stopped the bytes do not read plainly on as a single
file. -/
def Info.LacksBehindFiles (d : Decoder) : Prop :=
  ∃ e d', readFiles d = .error (.err e) d' ∧
    ¬ FailsWith IsPlain (do let info ← readSingle; skipFields; return info) d'

/-- The entries of an info lack a field of a single file, or one behind the files, or something is
lacking behind files that fail. -/
inductive Info.FieldsLackAt (n : ℕ) (es : Entries) (r : Bytes) : Prop where
  | single (absent : Missing "files" es) (lacks : SingleLacks es)
  | multi {files : List FileInfo} {rest : Entries} (read : filesReader es = some (files, rest))
      (lacks : MultiLacks rest)
  | behind (fail : FilesFail es) (lacks : LacksBehindFiles (atFields n es r))

def Info.LacksAt (n : ℕ) (t : Tree) (r : Bytes) : Prop := ∃ es, t = .dict es ∧ FieldsLackAt n es r

/-- The info of a torrent is missing, or lacks something itself, or drifts to where the search for
the end of the torrent panics. -/
inductive TorrentMetaInfo.InfoLacksAt (n : ℕ) (es : Entries) (r : Bytes) : Prop where
  | absent (absent : Missing "info" es)
  | within {t : Tree} {rest : Entries} (found : locate "info" es = .found t rest)
      (lacks : Info.LacksAt n t (printEntries rest ++ 101 :: r))
  | astray {t : Tree} {rest : Entries} {d : Decoder} (found : locate "info" es = .found t rest)
      (drift : Info.Drifts n t (printEntries rest ++ 101 :: r) d)
      (fail : ¬ FailsWith IsPlain skipFields d)

/-- The entries of a torrent lack a field in front of the info, or something in it. -/
inductive TorrentMetaInfo.FieldsLackAt (n : ℕ) (es : Entries) (r : Bytes) : Prop where
  | front (lacks : FrontLacks es)
  | info {front : Info → TorrentMetaInfo} {es' : Entries} (read : frontReader es = some (front, es'))
      (lacks : InfoLacksAt n es' r)

def TorrentMetaInfo.LacksAt (n : ℕ) (t : Tree) (r : Bytes) : Prop :=
  ∃ es, t = .dict es ∧ FieldsLackAt n es r

/-- In front of the value the decoder of the type panics or fails with a missing field. -/
def DecodeType.LacksAt : DecodeType → ℕ → Tree → Bytes → Prop
  | fileInfo, _, t, _ => FileInfo.Lacks t
  | info, n, t, r => Info.LacksAt n t r
  | metaInfo, n, t, r => TorrentMetaInfo.LacksAt n t r
  | list item, n, t, r => ∃ items, t = .list items ∧
      ItemsLack IsPlain item.decode (item.Drifts n) (item.LacksAt n) n r items
  | _, _, _, _ => False

theorem dict_lacks_iff {lacks : Entries → Prop} {es : Entries} :
    (∃ es', Tree.dict es = .dict es' ∧ lacks es') ↔ lacks es := by
  simp

section Types

variable {n : ℕ} {t : Tree} {es : Entries} {r : Bytes}

theorem FileInfo.failsAt (hs : t.Sorted) (hn : n < 2 ^ 63) (hfit : Fits n (t.print ++ r)) :
    FailsAt (Lacks t) decode (inFront n (t.print ++ r)) := lacking_file.readStruct hs hn hfit

/-- The attempt at the files does not panic. -/
theorem Info.readFiles_safe (hs : (Tree.dict es).Sorted) (hn : n < 2 ^ 63)
    (hfit : FieldsFit n es r) : FailsWith (· ≠ .panic) readFiles (atFields n es r) := by
  have hends := readField_ends (readList FileInfo.decode) "files" hfit
  cases hl : locate "files" es with
  | found t rest =>
    rw [hl] at hends
    have hrun : readFiles (atFields n es r) = readList FileInfo.decode _ := hends
    have hsorted := sortedEntries_iff.mp hs.2 _ (passed_of_locate hl).2
    rw [failsWith_congr hrun]
    refine readList_failsWith_of_items lenient_safe (DecodeType.progresses .fileInfo) hn
      (hfit.value hl) ?_ ?_
    · rintro items rfl t' ht'
      exact ⟨_, reads_file (sortedItems_iff.mp hsorted t' ht')⟩
    · rintro items rfl t' ht' r' hfit'
      exact (FileInfo.failsAt (sortedItems_iff.mp hsorted t' ht') hn hfit').safe
  | missing =>
    rw [hl] at hends
    exact (failsWith_iff_of_error hends).mpr (err_ne_panic _)
  | invalid =>
    rw [hl] at hends
    obtain ⟨d, hfail⟩ := hends
    exact (failsWith_iff_of_error hfail).mpr (err_ne_panic _)

theorem Info.failsPlainly_iff (hs : t.Sorted) (hn : n < 2 ^ 63) (hfit : Fits n (t.print ++ r)) :
    FailsWith IsPlain decode (inFront n (t.print ++ r)) ↔ ¬ LacksAt n t r := by
  by_cases hdict : ∃ es, t = .dict es
  · obtain ⟨es, rfl⟩ := hdict
    have hfields := (Reads.readStruct_run (x := readFields) hfit).1
    rw [LacksAt, dict_lacks_iff]
    by_cases hfail : FilesFail es
    · rcases decode_of_filesFail hs hfail hfit with ⟨d, hfiles, -⟩ | ⟨e, d, hfiles, hrun⟩
      · exact absurd rfl (readFiles_safe hs hn hfields _ d hfiles)
      · rw [failsWith_congr hrun]
        constructor
        · intro hplain hlacks
          cases hlacks with
          | single absent _ => exact hfail.1 absent
          | multi read _ => cases hfail.2.symm.trans read
          | behind _ lacks =>
            obtain ⟨e', d', hfiles', hnot⟩ := lacks
            cases hfiles.symm.trans hfiles'
            exact hnot hplain
        · intro hnot
          by_contra hplain
          exact hnot (.behind hfail ⟨e, d, hfiles, hplain⟩)
    · rw [Info.decode, failsWith_readStruct (simulatesAt_info hs hfail) hfit]
      by_cases hl : locate "files" es = .missing
      · rw [failsWith_congr (readFields_of_missing hfields hl),
          (lacking_single.fails hs hn hfields).plain_iff]
        refine not_congr ⟨.single hl, fun hlacks => ?_⟩
        cases hlacks with
        | single _ lacks => exact lacks
        | multi read _ =>
          rw [filesReader, takeField, hl] at read
          cases read
        | behind fail _ => exact absurd fail hfail
      · obtain ⟨⟨files, rest⟩, hy⟩ := Option.ne_none_iff_exists'.mp fun h => hfail ⟨hl, h⟩
        obtain ⟨hsuffix, hfound⟩ := (simulates_files es hs n r hfields).1 files rest hy
        have hbehind := (lacking_multi files).fails (sorted_of_suffix hs hsuffix) hn
          (hfields.suffix hsuffix)
        rw [failsWith_congr (readFields_of_files hfound), failsWith_bind_of_ok hfound,
          hbehind.plain_iff]
        refine not_congr ⟨.multi hy, fun hlacks => ?_⟩
        cases hlacks with
        | single absent _ => exact absurd absent hl
        | multi read lacks =>
          cases hy.symm.trans read
          exact lacks
        | behind fail _ => exact absurd fail hfail
  · have hother : ∀ es, t ≠ .dict es := fun es h => hdict ⟨es, h⟩
    refine iff_of_true (failsPlainly_readStruct_other hother hfit) ?_
    rintro ⟨es, heq, -⟩
    exact hdict ⟨es, heq⟩

theorem TorrentMetaInfo.info_failsPlainly_iff (front : Info → TorrentMetaInfo)
    (hs : (Tree.dict es).Sorted) (hn : n < 2 ^ 63) (hfit : FieldsFit n es r) :
    FailsWith IsPlain (do let info ← readField Info.decode "info"; skipFields; return front info)
      (atFields n es r) ↔ ¬ InfoLacksAt n es r := by
  have hends := readField_ends Info.decode "info" hfit
  rw [failsWith_bind_iff]
  cases hl : locate "info" es with
  | missing =>
    rw [hl] at hends
    exact iff_of_false (fun h => h.1 _ _ hends) fun h => h (.absent hl)
  | invalid =>
    rw [hl] at hends
    obtain ⟨d, hfail⟩ := hends
    refine iff_of_true ⟨(failsWith_iff_of_error hfail).mpr trivial, fun info d' hok => ?_⟩ fun h => ?_
    · cases hfail.symm.trans hok
    · cases h with
      | absent absent => cases hl.symm.trans absent
      | within found _ => cases hl.symm.trans found
      | astray found _ _ => cases hl.symm.trans found
  | found t rest =>
    rw [hl] at hends
    obtain ⟨hpassed, hmem⟩ := passed_of_locate hl
    have hsorted := sortedEntries_iff.mp hs.2 _ hmem
    have hinfo := Info.failsPlainly_iff hsorted hn (hfit.value hl)
    have hdrift := Info.driftsTo hsorted (hfit.value hl)
    have hrun : readField Info.decode "info" (atFields n es r) = Info.decode _ := hends
    constructor
    · rintro ⟨hfirst, hnext⟩ hlacks
      cases hlacks with
      | absent absent => cases hl.symm.trans absent
      | within found lacks =>
        cases hl.symm.trans found
        exact hinfo.mp (fun e d h => hfirst e d (hrun.trans h)) lacks
      | astray found drift fail =>
        cases hl.symm.trans found
        obtain ⟨-, info, hok⟩ := (hdrift _).mp drift
        exact fail (failsWith_bind_iff.mp (hnext info _ (hrun.trans hok))).1
    · intro hnot
      refine ⟨fun e d h => ?_, fun info d hok => ?_⟩
      · exact hinfo.mpr (fun hlacks => hnot (.within hl hlacks)) e d (hrun.symm.trans h)
      · refine failsWith_bind_iff.mpr ⟨?_, fun _ _ _ => FailsWith.of_ok rfl⟩
        by_cases hend : d = atFields n rest r
        · subst hend
          exact FailsWith.of_ok (skipFields_atFields (hfit.suffix hpassed.suffix))
        · by_contra hfail
          exact hnot (.astray hl ((hdrift d).mpr ⟨hend, info, hrun.symm.trans hok⟩) hfail)

theorem TorrentMetaInfo.failsPlainly_iff (hs : t.Sorted) (hn : n < 2 ^ 63)
    (hfit : Fits n (t.print ++ r)) :
    FailsWith IsPlain decode (inFront n (t.print ++ r)) ↔ ¬ LacksAt n t r := by
  by_cases hdict : ∃ es, t = .dict es
  · obtain ⟨es, rfl⟩ := hdict
    obtain ⟨hfields, hbody⟩ := decode_run hfit
    have hfront := lacking_front.fails hs hn hfields
    rw [LacksAt, dict_lacks_iff, failsWith_congr hbody, failsWith_bind_iff, hfront.plain_iff]
    constructor
    · rintro ⟨hnot, hnext⟩ hlacks
      cases hlacks with
      | front lacks => exact hnot lacks
      | info read lacks =>
        obtain ⟨hsuffix, hrun⟩ := (lacking_front.simulates es hs n r hfields).1 _ _ read
        exact (info_failsPlainly_iff _ (sorted_of_suffix hs hsuffix) hn (hfields.suffix hsuffix)).mp
          (hnext _ _ hrun) lacks
    · intro hnot
      refine ⟨fun hlacks => hnot (.front hlacks), fun front d hrun => ?_⟩
      obtain ⟨es', hy, hsuffix, rfl⟩ := (lacking_front.simulates es hs).of_ok hfields hrun
      have hinfo := info_failsPlainly_iff front (sorted_of_suffix hs hsuffix) hn
        (hfields.suffix hsuffix)
      exact hinfo.mpr fun hlacks => hnot (.info hy hlacks)
  · have hother : ∀ es, t ≠ .dict es := fun es h => hdict ⟨es, h⟩
    refine iff_of_true (failsPlainly_readStruct_other hother hfit) ?_
    rintro ⟨es, heq, -⟩
    exact hdict ⟨es, heq⟩

/-- The values on which the decoder of a type does not fail plainly are those that lack something. -/
theorem DecodeType.failsPlainly_iff (T : DecodeType) (hs : t.Sorted) (hn : n < 2 ^ 63)
    (hfit : Fits n (t.print ++ r)) :
    FailsWith IsPlain T.decode (inFront n (t.print ++ r)) ↔ ¬ T.LacksAt n t r := by
  induction T generalizing t r with
  | fileInfo => exact (FileInfo.failsAt hs hn hfit).plain_iff
  | info => exact Info.failsPlainly_iff hs hn hfit
  | metaInfo => exact TorrentMetaInfo.failsPlainly_iff hs hn hfit
  | list item ih =>
    refine readList_lacks (fun _ => id) item.progresses hn hfit ?_
    rintro items rfl t' ht' r' hfit'
    have hsorted := sortedItems_iff.mp hs t' ht'
    exact ⟨item.driftsTo hsorted hfit', ih hsorted hfit'⟩
  | integer ty =>
    exact iff_of_true (WithoutStruct.failsPlainly (T := .integer ty) trivial (hfit.inSlice hn)) id
  | string =>
    exact iff_of_true (WithoutStruct.failsPlainly (T := .string) trivial (hfit.inSlice hn)) id
  | sha1List =>
    exact iff_of_true (WithoutStruct.failsPlainly (T := .sha1List) trivial (hfit.inSlice hn)) id
  | value =>
    exact iff_of_true (WithoutStruct.failsPlainly (T := .value) trivial (hfit.inSlice hn)) id

end Types
/-- The entries of an info lack a field of a single file, or one behind the files. -/
inductive Info.FieldsLack (es : Entries) : Prop where
  | single (absent : Missing "files" es) (lacks : SingleLacks es)
  | multi {files : List FileInfo} {rest : Entries} (read : filesReader es = some (files, rest))
      (lacks : MultiLacks rest)

/-- The info of a torrent is missing, or lacks something itself. -/
inductive TorrentMetaInfo.InfoLacks (es : Entries) : Prop where
  | absent (absent : Missing "info" es)
  | within {t : Tree} {rest : Entries} (found : locate "info" es = .found t rest)
      (lacks : DictIs Info.FieldsLack t)

/-- The entries of a torrent lack a field in front of the info, or something in it. -/
inductive TorrentMetaInfo.FieldsLack (es : Entries) : Prop where
  | front (lacks : FrontLacks es)
  | info {front : Info → TorrentMetaInfo} {es' : Entries} (read : frontReader es = some (front, es'))
      (lacks : InfoLacks es')

/-- The value lacks a field of its own as one of the type: a list has an item that does, behind
items that can be read. -/
def DecodeType.Lacks : DecodeType → Tree → Prop
  | fileInfo, t => DictIs FileInfo.FieldsLack t
  | info, t => DictIs Info.FieldsLack t
  | metaInfo, t => DictIs TorrentMetaInfo.FieldsLack t
  | list item, t => ∃ items u, t = .list items ∧ Reached item.ofTree items u ∧ item.Lacks u
  | _, _ => False

theorem dictIs_iff {p : Entries → Prop} {t : Tree} : DictIs p t ↔ ∃ es, t = .dict es ∧ p es := by
  cases t <;> simp [DictIs]

section Trees

variable {n : ℕ} {t : Tree} {es : Entries} {r : Bytes}

theorem Info.fieldsLackAt_iff (hfiles : ¬ FilesFail es) :
    FieldsLackAt n es r ↔ FieldsLack es := by
  constructor
  · intro h
    cases h with
    | single absent lacks => exact .single absent lacks
    | multi read lacks => exact .multi read lacks
    | behind fail _ => exact absurd fail hfiles
  · intro h
    cases h with
    | single absent lacks => exact .single absent lacks
    | multi read lacks => exact .multi read lacks

theorem Info.lacksAt_iff (hfiles : ¬ DictIs FilesFail t) :
    LacksAt n t r ↔ DictIs FieldsLack t := by
  rw [LacksAt, dictIs_iff]
  refine exists_congr fun es => and_congr_right fun heq => fieldsLackAt_iff fun hfail => ?_
  subst heq
  exact hfiles hfail

theorem TorrentMetaInfo.fieldsLackAt_iff (hfiles : ¬ MeetsInfoFilesFail es) :
    FieldsLackAt n es r ↔ FieldsLack es := by
  have hinfo : ∀ {front es' info rest}, frontReader es = some (front, es') →
      locate "info" es' = .found info rest → ¬ DictIs FilesFail info :=
    fun hfront hl hfail => hfiles ⟨_, _, _, _, hfront, hl, hfail⟩
  constructor
  · intro h
    cases h with
    | front lacks => exact .front lacks
    | info read lacks =>
      refine .info read ?_
      cases lacks with
      | absent absent => exact .absent absent
      | within found lacks => exact .within found ((Info.lacksAt_iff (hinfo read found)).mp lacks)
      | astray found drift _ =>
        obtain ⟨ie, rfl, hfail, -⟩ := drift
        exact absurd hfail (hinfo read found)
  · intro h
    cases h with
    | front lacks => exact .front lacks
    | info read lacks =>
      refine .info read ?_
      cases lacks with
      | absent absent => exact .absent absent
      | within found lacks => exact .within found ((Info.lacksAt_iff (hinfo read found)).mpr lacks)

/-- Where the items are read that are got to, a list lacks what one of them does. -/
theorem itemsLack_iff_reached {T : DecodeType} {items : List Tree}
    (hfit : Fits n (printItems items ++ 101 :: r)) (hs : ∀ u ∈ items, u.Sorted)
    (hfiles : ∀ u, Reached T.ofTree items u → ¬ T.MeetsFailingFiles u)
    (h : ∀ u r', Reached T.ofTree items u → Fits n (u.print ++ r') →
      (T.LacksAt n u r' ↔ T.Lacks u)) :
    ItemsLack IsPlain T.decode (T.Drifts n) (T.LacksAt n) n r items ↔
      ∃ u, Reached T.ofTree items u ∧ T.Lacks u := by
  induction items with
  | nil =>
    refine iff_of_false nofun ?_
    rintro ⟨u, hu, -⟩
    cases hu.mem
  | cons t items ih =>
    rw [printItems, List.append_assoc] at hfit
    obtain ⟨hsorted, hs⟩ := List.forall_mem_cons.mp hs
    have hhead := @Reached.head _ _ T.ofTree t items
    have hread := T.reads hsorted (hfiles t hhead)
    have hitems : T.ofTree t ≠ none → (ItemsLack IsPlain T.decode (T.Drifts n) (T.LacksAt n) n r items ↔
        ∃ u, Reached T.ofTree items u ∧ T.Lacks u) := fun ht =>
      ih hfit.right hs (fun u hu => hfiles u (hu.behind ht)) fun u r' hu => h u r' (hu.behind ht)
    constructor
    · intro hlacks
      cases hlacks with
      | here lack => exact ⟨t, hhead, (h t _ hhead hfit).mp lack⟩
      | astray drift _ =>
        obtain ⟨hoff, a, hrun⟩ := (T.driftsTo hsorted hfit _).mp drift
        exact absurd (hread.end_eq hfit hrun) hoff
      | behind read lack =>
        have ht : T.ofTree t ≠ none := by
          intro hnone
          rw [hnone] at hread
          obtain ⟨e, d, hfail⟩ := hread.inFront hfit
          cases hfail.symm.trans read
        obtain ⟨u, hu, hlacks⟩ := (hitems ht).mp lack
        exact ⟨u, hu.behind ht, hlacks⟩
    · rintro ⟨u, hu, hlacks⟩
      rcases Reached.cons_iff.mp hu with rfl | ⟨ht, hu⟩
      · exact .here ((h u _ hhead hfit).mpr hlacks)
      · obtain ⟨a, ha⟩ := Option.ne_none_iff_exists'.mp ht
        rw [ha] at hread
        exact .behind (hread.inFront hfit) ((hitems ht).mpr ⟨u, hu, hlacks⟩)

theorem DecodeType.lacksAt_iff (T : DecodeType) (hs : t.Sorted) (hfit : Fits n (t.print ++ r))
    (hfiles : ¬ T.MeetsFailingFiles t) : T.LacksAt n t r ↔ T.Lacks t := by
  induction T generalizing t r with
  | fileInfo => exact dictIs_iff.symm
  | info => exact Info.lacksAt_iff hfiles
  | metaInfo =>
    rw [LacksAt, TorrentMetaInfo.LacksAt, Lacks, dictIs_iff]
    refine exists_congr fun es => and_congr_right fun heq =>
      TorrentMetaInfo.fieldsLackAt_iff fun hmeets => ?_
    subst heq
    exact hfiles hmeets
  | list item ih =>
    rw [LacksAt, Lacks]
    refine exists_congr fun items => ?_
    rw [exists_and_left]
    refine and_congr_right fun heq => ?_
    subst heq
    have hmeets : ∀ u, Reached item.ofTree items u → ¬ item.MeetsFailingFiles u :=
      fun u hu h => hfiles ⟨items, u, rfl, hu, h⟩
    rw [print_list_append] at hfit
    have hopen : Fits n ([108] ++ (printItems items ++ 101 :: r)) := hfit
    have hsorted := sortedItems_iff.mp hs
    exact itemsLack_iff_reached hopen.right hsorted hmeets
      fun u r' hu hfit' => ih (hsorted u hu.mem) hfit' (hmeets u hu)
  | _ => exact Iff.rfl

end Trees

end TorrentClient
