import TorrentClient.FailingFiles

/-!
# Decoders that lose the input

In front of a printed value a decoder that returns stands behind the value, with one exception:
an info whose files fail is read on as a single file from wherever the failure was. `Drifts` says
where such an info leads the decoders of all types.
-/
namespace TorrentClient
open Bencode
open Decoder

variable {α : Type}

/-- The reading of the files stops with an error at a place from where on the bytes read as the
fields of a single file and the end of a dictionary, up to the second place. -/
def SingleBehind (d d' : Decoder) : Prop :=
  ∃ e d₁ info d₂, Info.readFiles d = .error (.err e) d₁ ∧ Info.readSingle d₁ = .ok info d₂ ∧
    skipFields d₂ = .ok () d'

/-- The files of the info fail, and it is read up to another place than its end. -/
def Info.Drifts (n : ℕ) (t : Tree) (r : Bytes) (d : Decoder) : Prop :=
  ∃ es, t = .dict es ∧ FilesFail es ∧ SingleBehind (atFields n es r) d ∧ d ≠ inFront n r

/-- The torrent is read up to an info that drifts, and from there to another place than its end. -/
def TorrentMetaInfo.Drifts (n : ℕ) (t : Tree) (r : Bytes) (d : Decoder) : Prop :=
  ∃ es front es' info rest d₁, t = .dict es ∧ frontReader es = some (front, es') ∧
    locate "info" es' = .found info rest ∧
    Info.Drifts n info (printEntries rest ++ 101 :: r) d₁ ∧ skipFields d₁ = .ok () d ∧
    d ≠ inFront n r

/-- The first items are read, one drifts, and from there on the bytes read as items and the end of
a list, up to another place than the end of this one. -/
inductive ItemsDrift (decode : DecoderM α) (drifts : Tree → Bytes → Decoder → Prop) (n : ℕ)
    (r : Bytes) : List Tree → Decoder → Prop where
  | here {t : Tree} {items : List Tree} {d d' : Decoder}
      (drift : drifts t (printItems items ++ 101 :: r) d) (more : ReadsItems decode d d')
      (off : d' ≠ inFront n r) : ItemsDrift decode drifts n r (t :: items) d'
  | behind {t : Tree} {items : List Tree} {a : α} {d' : Decoder}
      (read : decode (inFront n (t.print ++ (printItems items ++ 101 :: r))) =
        .ok a (inFront n (printItems items ++ 101 :: r)))
      (drift : ItemsDrift decode drifts n r items d') : ItemsDrift decode drifts n r (t :: items) d'

/-- In front of the value the decoder of the type leads to the place, which is not its end. -/
def DecodeType.Drifts : DecodeType → ℕ → Tree → Bytes → Decoder → Prop
  | info, n, t, r, d => Info.Drifts n t r d
  | metaInfo, n, t, r, d => TorrentMetaInfo.Drifts n t r d
  | list item, n, t, r, d => ∃ items, t = .list items ∧
      ItemsDrift item.decode (item.Drifts n) n r items d
  | _, _, _, _, _ => False

/-- The decoder in front of the value leads to the places that are said, and else to its end. -/
def DriftsTo (x : DecoderM α) (n : ℕ) (bytes r : Bytes) (drifts : Decoder → Prop) : Prop :=
  ∀ d, drifts d ↔ d ≠ inFront n r ∧ ∃ a, x (inFront n (bytes ++ r)) = .ok a d

section Drift

variable {x : DecoderM α} {n : ℕ} {t : Tree} {bytes r : Bytes}

/-- What is read of the bytes is read to their end. -/
theorem Reads.driftsTo {result : Option α} (h : Reads x bytes result) (hfit : Fits n (bytes ++ r)) :
    DriftsTo x n bytes r fun _ => False := by
  intro d
  refine iff_of_false id ?_
  rintro ⟨hoff, a, hrun⟩
  exact hoff (h.end_eq hfit hrun)

theorem DriftsTo.of_false {drifts : Decoder → Prop} (h : DriftsTo x n bytes r fun _ => False)
    (hnot : ∀ d, ¬ drifts d) : DriftsTo x n bytes r drifts :=
  fun d => (iff_of_false (hnot d) id).trans (h d)

theorem struct_eq_ok {d d' : Decoder} {a : α} :
    (do let a ← x; skipFields; return a) d = .ok a d' ↔
      ∃ d₁, x d = .ok a d₁ ∧ skipFields d₁ = .ok () d' := by
  rw [stateful_bind_eq_ok]
  constructor
  · rintro ⟨a', d₁, hx, h⟩
    obtain ⟨⟨⟩, d₂, hskip, h⟩ := stateful_bind_eq_ok.mp h
    cases h
    exact ⟨d₁, hx, hskip⟩
  · rintro ⟨d₁, hx, hskip⟩
    exact ⟨a, d₁, hx, stateful_bind_eq_ok.mpr ⟨(), d', hskip, rfl⟩⟩

/-- Where the files fail the info is read on as a single file. -/
theorem Info.decode_eq_ok {es : Entries} (hs : (Tree.dict es).Sorted) (hfail : FilesFail es)
    (hfit : Fits n ((Tree.dict es).print ++ r)) {d : Decoder} :
    (∃ info, Info.decode (inFront n ((Tree.dict es).print ++ r)) = .ok info d) ↔
      SingleBehind (atFields n es r) d := by
  rcases Info.decode_of_filesFail hs hfail hfit with ⟨d₁, hfiles, hrun⟩ | ⟨e, d₁, hfiles, hrun⟩
  · rw [hrun]
    refine iff_of_false nofun ?_
    rintro ⟨e, d₁, info, d₂, hfiles', -, -⟩
    cases hfiles.symm.trans hfiles'
  · rw [hrun]
    constructor
    · rintro ⟨info, h⟩
      obtain ⟨d₂, hsingle, hskip⟩ := struct_eq_ok.mp h
      exact ⟨e, d₁, info, d₂, hfiles, hsingle, hskip⟩
    · rintro ⟨e', d₁', info, d₂, hfiles', hsingle, hskip⟩
      cases hfiles.symm.trans hfiles'
      exact ⟨info, struct_eq_ok.mpr ⟨d₂, hsingle, hskip⟩⟩

theorem Info.driftsTo (hs : t.Sorted) (hfit : Fits n (t.print ++ r)) :
    DriftsTo Info.decode n t.print r (Info.Drifts n t r) := by
  by_cases hfail : ∃ es, t = .dict es ∧ FilesFail es
  · obtain ⟨es, rfl, hfail⟩ := hfail
    intro d
    rw [Info.decode_eq_ok hs hfail hfit]
    constructor
    · rintro ⟨es', heq, -, hbehind, hoff⟩
      cases heq
      exact ⟨hoff, hbehind⟩
    · rintro ⟨hoff, hbehind⟩
      exact ⟨es, rfl, hfail, hbehind, hoff⟩
  · have hread : ∃ result, Reads Info.decode t.print result := by
      by_cases hdict : ∃ es, t = .dict es
      · obtain ⟨es, rfl⟩ := hdict
        exact ⟨_, Reads.readStruct_dict (simulatesAt_info hs fun h => hfail ⟨es, rfl, h⟩)⟩
      · exact ⟨none, Reads.readStruct_other fun es h => hdict ⟨es, h⟩⟩
    obtain ⟨result, hread⟩ := hread
    refine (hread.driftsTo hfit).of_false ?_
    rintro d ⟨es, heq, hfail', -⟩
    exact hfail ⟨es, heq, hfail'⟩

/-- The fields in front of the info do not drift. -/
theorem TorrentMetaInfo.decode_eq_ok {es : Entries} (hs : (Tree.dict es).Sorted)
    (hfit : Fits n ((Tree.dict es).print ++ r)) {d : Decoder} :
    (∃ m, TorrentMetaInfo.decode (inFront n ((Tree.dict es).print ++ r)) = .ok m d) ↔
      ∃ front es' info rest d₁, frontReader es = some (front, es') ∧
        locate "info" es' = .found info rest ∧
        (∃ a, Info.decode (inFront n (info.print ++ (printEntries rest ++ 101 :: r))) = .ok a d₁) ∧
        skipFields d₁ = .ok () d := by
  obtain ⟨hfields, hbody⟩ := TorrentMetaInfo.decode_run hfit
  rw [hbody]
  constructor
  · rintro ⟨m, hrun⟩
    obtain ⟨front, d₀, hfront, hrun⟩ := stateful_bind_eq_ok.mp hrun
    obtain ⟨a, d₁, hinfo, hrun⟩ := stateful_bind_eq_ok.mp hrun
    obtain ⟨⟨⟩, d₂, hskip, hrun⟩ := stateful_bind_eq_ok.mp hrun
    cases hrun
    obtain ⟨es', hy, hsuffix, rfl⟩ := (simulates_front es hs).of_ok hfields hfront
    have hends := readField_ends Info.decode "info" (hfields.suffix hsuffix)
    rw [hinfo] at hends
    cases hl : locate "info" es' with
    | found info rest =>
      rw [hl] at hends
      exact ⟨front, es', info, rest, d₁, hy, hl, ⟨a, (show _ = _ from hends).symm⟩, hskip⟩
    | missing =>
      rw [hl] at hends
      cases (show _ = _ from hends)
    | invalid =>
      rw [hl] at hends
      obtain ⟨d', hfail⟩ := hends
      cases hfail
  · rintro ⟨front, es', info, rest, d₁, hy, hl, ⟨a, hinfo⟩, hskip⟩
    obtain ⟨hsuffix, hfront⟩ := (simulates_front es hs n r hfields).1 front es' hy
    have hends := readField_ends Info.decode "info" (hfields.suffix hsuffix)
    rw [hl] at hends
    refine ⟨front a, ?_⟩
    rw [bind_of_ok hfront, bind_of_eq hends, bind_of_ok hinfo, bind_of_ok hskip]
    rfl

theorem TorrentMetaInfo.driftsTo (hs : t.Sorted) (hfit : Fits n (t.print ++ r)) :
    DriftsTo TorrentMetaInfo.decode n t.print r (TorrentMetaInfo.Drifts n t r) := by
  by_cases hdict : ∃ es, t = .dict es
  · obtain ⟨es, rfl⟩ := hdict
    intro d
    have hfields := (TorrentMetaInfo.decode_run hfit).1
    have hinfo : ∀ front es' info rest, frontReader es = some (front, es') →
        locate "info" es' = .found info rest → rest <:+ es ∧ DriftsTo Info.decode n info.print
          (printEntries rest ++ 101 :: r) (Info.Drifts n info (printEntries rest ++ 101 :: r)) := by
      intro front es' info rest hy hl
      have hsuffix := (passes_front es front es' hy).suffix
      obtain ⟨hpassed, hmem⟩ := passed_of_locate hl
      have hsorted := sortedEntries_iff.mp (sorted_of_suffix hs hsuffix).2 _ hmem
      exact ⟨hpassed.suffix.trans hsuffix,
        Info.driftsTo hsorted ((hfields.suffix hsuffix).value hl)⟩
    rw [TorrentMetaInfo.decode_eq_ok hs hfit]
    constructor
    · rintro ⟨es₁, front, es', info, rest, d₁, heq, hy, hl, hdrift, hskip, hoff⟩
      cases heq
      have hrun := (((hinfo front es' info rest hy hl).2 d₁).mp hdrift).2
      exact ⟨hoff, front, es', info, rest, d₁, hy, hl, hrun, hskip⟩
    · rintro ⟨hoff, front, es', info, rest, d₁, hy, hl, hrun, hskip⟩
      obtain ⟨hsuffix, hdrift⟩ := hinfo front es' info rest hy hl
      refine ⟨es, front, es', info, rest, d₁, rfl, hy, hl, (hdrift d₁).mpr ⟨?_, hrun⟩, hskip, hoff⟩
      rintro rfl
      have hend : skipFields (inFront n (printEntries rest ++ 101 :: r)) = .ok () (inFront n r) :=
        skipFields_atFields (hfields.suffix hsuffix)
      cases hend.symm.trans hskip
      exact hoff rfl
  · have hread : Reads TorrentMetaInfo.decode t.print none :=
      Reads.readStruct_other fun es h => hdict ⟨es, h⟩
    refine (hread.driftsTo hfit).of_false ?_
    rintro d ⟨es, front, es', info, rest, d₁, heq, -⟩
    exact hdict ⟨es, heq⟩

theorem print_list_append (items : List Tree) (r : Bytes) :
    (Tree.list items).print ++ r = 108 :: (printItems items ++ 101 :: r) := by
  rw [Tree.print, List.cons_append, List.append_assoc]
  rfl

theorem itemsDrift_iff {decode : DecoderM α} {drifts : Tree → Bytes → Decoder → Prop}
    {items : List Tree} (hfit : Fits n (printItems items ++ 101 :: r))
    (h : ∀ t ∈ items, ∀ r', Fits n (t.print ++ r') → DriftsTo decode n t.print r' (drifts t r'))
    {d' : Decoder} : ItemsDrift decode drifts n r items d' ↔ d' ≠ inFront n r ∧
      ReadsItems decode (inFront n (printItems items ++ 101 :: r)) d' := by
  induction items with
  | nil =>
    refine iff_of_false nofun ?_
    rintro ⟨hoff, h⟩
    have hle := hfit.le
    rw [printItems, List.nil_append, List.length_cons] at hle
    rw [printItems, List.nil_append, inFront] at h
    cases h with
    | done =>
      apply hoff
      rw [inFront, List.length_cons]
      congr 1
      omega
    | item start _ _ => exact absurd rfl start
  | cons t items ih =>
    obtain ⟨hhead, htail⟩ := List.forall_mem_cons.mp h
    rw [printItems, List.append_assoc] at hfit ⊢
    have hitems := ih hfit.right htail
    have hdrift := hhead _ hfit
    have hstart : (inFront n (t.print ++ (printItems items ++ 101 :: r))).rest.head? ≠ some 101 := by
      obtain ⟨b, hb, hne⟩ := t.head?_print
      rw [inFront, List.head?_append, hb]
      exact fun heq => hne (Option.some.inj heq)
    constructor
    · intro hdrifts
      cases hdrifts with
      | here drift more off =>
        obtain ⟨-, a, hrun⟩ := (hdrift _).mp drift
        exact ⟨off, .item hstart hrun more⟩
      | behind read drift =>
        obtain ⟨hoff, hmore⟩ := hitems.mp drift
        exact ⟨hoff, .item hstart read hmore⟩
    · rintro ⟨hoff, hreads⟩
      obtain ⟨a, d₁, hrun, hmore⟩ := hreads.cases_item hstart
      by_cases hend : d₁ = inFront n (printItems items ++ 101 :: r)
      · subst hend
        exact .behind hrun (hitems.mpr ⟨hoff, hmore⟩)
      · exact .here ((hdrift d₁).mpr ⟨hend, a, hrun⟩) hmore hoff

theorem DecodeType.driftsTo (T : DecodeType) (hs : t.Sorted) (hfit : Fits n (t.print ++ r)) :
    DriftsTo T.decode n t.print r (T.Drifts n t r) := by
  induction T generalizing t r with
  | integer ty => exact (Reads.readIntegerOf ty t).driftsTo hfit
  | string => exact (Reads.readText t).driftsTo hfit
  | sha1List => exact (Reads.readSha1List t).driftsTo hfit
  | value => exact (Reads.decode_tree t).driftsTo hfit
  | fileInfo => exact (reads_file hs).driftsTo hfit
  | info => exact Info.driftsTo hs hfit
  | metaInfo => exact TorrentMetaInfo.driftsTo hs hfit
  | list item ih =>
    by_cases hlist : ∃ items, t = .list items
    · obtain ⟨items, rfl⟩ := hlist
      have hsorted := sortedItems_iff.mp hs
      rw [DriftsTo, print_list_append]
      rw [print_list_append] at hfit
      intro d
      have hopen : Fits n ([108] ++ (printItems items ++ 101 :: r)) := hfit
      have hitems : ItemsDrift item.decode (item.Drifts n) n r items d ↔ _ :=
        itemsDrift_iff hopen.right fun t ht r' hfit' => ih (hsorted t ht) hfit'
      have hread : (∃ a, item.list.decode (inFront n (108 :: (printItems items ++ 101 :: r))) =
          .ok a d) ↔ _ := readList_iff item.progresses hfit
      rw [hread, ← hitems]
      constructor
      · rintro ⟨items', heq, hdrift⟩
        cases heq
        exact hdrift
      · intro hdrift
        exact ⟨items, rfl, hdrift⟩
    · have hread : Reads (readList item.decode) t.print (listOf (fun _ => none) t) :=
        Reads.readListOf fun items h => absurd ⟨items, h⟩ hlist
      refine (hread.driftsTo hfit).of_false ?_
      rintro d ⟨items, heq, -⟩
      exact hlist ⟨items, heq⟩

end Drift

/-- The decoders of all types stay in step with the input unless they drift. -/
theorem in_step_iff (T : DecodeType) {n : ℕ} {t : Tree} {r : Bytes} (hs : t.Sorted)
    (hfit : Fits n (t.print ++ r)) :
    (∀ a d, T.decode (inFront n (t.print ++ r)) = .ok a d → d = inFront n r) ↔
      ∀ d, ¬ T.Drifts n t r d := by
  have hdrift := T.driftsTo hs hfit
  constructor
  · intro h d hd
    obtain ⟨hoff, a, hrun⟩ := (hdrift d).mp hd
    exact hoff (h a d hrun)
  · intro h a d hrun
    by_contra hoff
    exact h d ((hdrift d).mpr ⟨hoff, a, hrun⟩)

end TorrentClient
