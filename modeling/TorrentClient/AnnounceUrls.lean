import TorrentClient.MetaInfo
import TorrentClient.QueryStrings
import Mathlib.Data.String.Basic

/-!
# Announce urls

The tracker task and the supervisor put the parameters of an announce behind the url of the
tracker and a question mark. A url that has a query of its own then has a second question
mark, which ends up in the last of its parameters together with the first one of the announce.
-/
namespace TorrentClient
open QueryStrings

def encodeQueryParams (params : List (String × String)) : String :=
  "&".intercalate (params.map fun (k, v) => k ++ "=" ++ v)

section Requests

variable {Url : Type} (display : Url → String) (percentEncode : Bytes → String)

/-- The `params` of both functions `get_tracker_response_surf`; `compact` differs. -/
def announceParams (compact peerId : String) (length : UInt64) (infoHash : Bytes)
    (listenerPort : UInt16) : List (String × String) :=
  [("left", toString length), ("info_hash", percentEncode infoHash), ("downloaded", "0"),
    ("uploaded", "0"), ("event", "started"), ("peer_id", peerId), ("compact", compact),
    ("port", toString listenerPort)]

/-- The `params` of `get_tracker_response_surf` of a tracker task. -/
def Tracker.announceParams (peerId : String) (length : UInt64) (infoHash : Sha1)
    (listenerPort : UInt16) : List (String × String) :=
  TorrentClient.announceParams percentEncode "0" peerId length infoHash.bytes listenerPort

/-- The `url` of `get_tracker_response_surf` of a tracker task. -/
def Tracker.announceUrl (peerId : String) (announce : Url) (length : UInt64) (infoHash : Sha1)
    (listenerPort : UInt16) : String :=
  display announce ++ "?" ++
    encodeQueryParams (announceParams percentEncode peerId length infoHash listenerPort)

/-- The `params` of `get_tracker_response_surf` of the supervisor. -/
def TrackerSupervisor.announceParams (peerId : String) (length : UInt64) (infoHash : Bytes)
    (listenerPort : UInt16) : List (String × String) :=
  TorrentClient.announceParams percentEncode "1" peerId length infoHash listenerPort

/-- The `url` of `get_tracker_response_surf` of the supervisor. -/
def TrackerSupervisor.announceUrl (peerId announce : String) (length : UInt64) (infoHash : Bytes)
    (listenerPort : UInt16) : String :=
  announce ++ "?" ++
    encodeQueryParams (announceParams percentEncode peerId length infoHash listenerPort)

end Requests

/-- What follows the first `?` of a url, cut at `&` and every part of it at `=`. -/
def queryParams (url : String) : List (List String) :=
  (query '?' '&' '=' url.toList).map (List.map String.ofList)

/-- The url has the parameters of the announce url and then those of the request. -/
def CarriesParams (announce url : String) (params : List (String × String)) : Prop :=
  queryParams url = queryParams announce ++ params.map fun (k, v) => [k, v]

/-- A text without the characters that end a part of a url. -/
def PlainText (text : String) : Prop :=
  '?' ∉ text.toList ∧ '&' ∉ text.toList ∧ '=' ∉ text.toList ∧ '#' ∉ text.toList

instance (text : String) : Decidable (PlainText text) :=
  inferInstanceAs (Decidable (_ ∧ _ ∧ _ ∧ _))

theorem toList_encodeQueryParams (params : List (String × String)) :
    (encodeQueryParams params).toList =
      join '&' '=' (params.map fun (k, v) => (k.toList, v.toList)) := by
  rw [encodeQueryParams, String.toList_intercalate, join, List.map_map, List.map_map]
  congr 1
  apply List.map_congr_left
  rintro ⟨k, v⟩ -
  simp [field]

theorem map_ofList_params (params : List (String × String)) :
    ((params.map fun (k, v) => (k.toList, v.toList)).map fun p => [p.1, p.2]).map
      (List.map String.ofList) = params.map fun (k, v) => [k, v] := by
  rw [List.map_map, List.map_map]
  apply List.map_congr_left
  rintro ⟨k, v⟩ -
  simp

theorem carriesParams_iff {announce : String} {params : List (String × String)}
    (hne : params ≠ []) (hplain : ∀ param ∈ params, PlainText param.1 ∧ PlainText param.2) :
    CarriesParams announce (announce ++ "?" ++ encodeQueryParams params) params ↔
      '?' ∉ announce.toList := by
  have hinj : Function.Injective (List.map (List.map String.ofList)) :=
    List.map_injective_iff.mpr (List.map_injective_iff.mpr fun _ _ => String.ofList_injective)
  have hplain' : ∀ param ∈ params.map fun (k, v) => (k.toList, v.toList),
      Plain '?' '&' '=' param.1 ∧ Plain '?' '&' '=' param.2 := by
    intro param hparam
    obtain ⟨⟨k, v⟩, hmem, rfl⟩ := List.mem_map.mp hparam
    obtain ⟨⟨hk, hk', hk'', -⟩, hv, hv', hv'', -⟩ := hplain _ hmem
    exact ⟨⟨hk, hk', hk''⟩, hv, hv', hv''⟩
  have htext : (announce ++ "?" ++ encodeQueryParams params).toList =
      announce.toList ++ '?' :: (encodeQueryParams params).toList := by simp
  rw [CarriesParams, queryParams, queryParams, htext, toList_encodeQueryParams,
    ← map_ofList_params, ← List.map_append, hinj.eq_iff]
  exact query_append_iff (by decide) (by decide) (by decide) (by simpa using hne) hplain'

theorem plainText_of_forall {text : String}
    (h : ∀ c ∈ text.toList, c ≠ '?' ∧ c ≠ '&' ∧ c ≠ '=' ∧ c ≠ '#') : PlainText text :=
  ⟨fun hc => (h _ hc).1 rfl, fun hc => (h _ hc).2.1 rfl, fun hc => (h _ hc).2.2.1 rfl,
    fun hc => (h _ hc).2.2.2 rfl⟩

theorem ne_of_isAlphanum {c : Char} (h : c.isAlphanum) : c ≠ '?' ∧ c ≠ '&' ∧ c ≠ '=' ∧ c ≠ '#' := by
  refine ⟨?_, ?_, ?_, ?_⟩
  all_goals
    rintro rfl
    revert h
    decide

/-- Peer ids are made of such characters. -/
theorem plainText_of_alphanumeric_or_dash {text : String}
    (h : ∀ c ∈ text.toList, c.isAlphanum ∨ c = '-') : PlainText text := by
  apply plainText_of_forall
  intro c hc
  rcases h c hc with hc | rfl
  · exact ne_of_isAlphanum hc
  · decide

theorem plainText_repr (n : ℕ) : PlainText n.repr := by
  apply plainText_of_alphanumeric_or_dash
  intro c hc
  have hdigit : c.isDigit := Nat.isDigit_of_mem_toDigits (b := 10) (by decide) (by decide)
    (by simpa [Nat.repr] using hc)
  simp [Char.isAlphanum, hdigit]

theorem announceParams_plain {percentEncode : Bytes → String} {compact peerId : String}
    (hencode : ∀ bytes, PlainText (percentEncode bytes)) (hcompact : PlainText compact)
    (hpeer : PlainText peerId) (length : UInt64) (infoHash : Bytes) (listenerPort : UInt16) :
    ∀ param ∈ announceParams percentEncode compact peerId length infoHash listenerPort,
      PlainText param.1 ∧ PlainText param.2 := by
  simp only [announceParams, List.forall_mem_cons]
  exact ⟨⟨by decide, plainText_repr _⟩, ⟨by decide, hencode infoHash⟩, ⟨by decide, by decide⟩,
    ⟨by decide, by decide⟩, ⟨by decide, by decide⟩, ⟨by decide, hpeer⟩, ⟨by decide, hcompact⟩,
    ⟨by decide, plainText_repr _⟩, List.forall_mem_nil _⟩

def hexDigit (n : ℕ) : Char := (Nat.digitChar n).toUpper

/-- One byte in the form of urls: letters, digits and four signs stand for themselves. -/
def formUrlencodedByte (b : UInt8) : List Char :=
  let c := Char.ofNat b.toNat
  if c.isAlphanum || c = '*' || c = '-' || c = '.' || c = '_' then [c]
  else ['%', hexDigit (b.toNat / 16), hexDigit (b.toNat % 16)]

def formUrlencoded (bytes : Bytes) : String := String.ofList (bytes.flatMap formUrlencodedByte)

theorem hexDigit_plain : ∀ n < 16,
    hexDigit n ≠ '?' ∧ hexDigit n ≠ '&' ∧ hexDigit n ≠ '=' ∧ hexDigit n ≠ '#' := by decide

theorem formUrlencodedByte_plain (b : UInt8) :
    ∀ c ∈ formUrlencodedByte b, c ≠ '?' ∧ c ≠ '&' ∧ c ≠ '=' ∧ c ≠ '#' := by
  have hlow := hexDigit_plain (b.toNat % 16) (Nat.mod_lt _ (by decide))
  have hhigh := hexDigit_plain (b.toNat / 16) (Nat.div_lt_of_lt_mul b.toNat_lt)
  rw [formUrlencodedByte]
  generalize Char.ofNat b.toNat = c
  split_ifs with hkept
  · rw [List.forall_mem_singleton]
    simp only [Bool.or_eq_true, decide_eq_true_iff, or_assoc] at hkept
    rcases hkept with h | rfl | rfl | rfl | rfl
    · exact ne_of_isAlphanum h
    all_goals decide
  · simp only [List.forall_mem_cons]
    exact ⟨by decide, hhigh, hlow, List.forall_mem_nil _⟩

theorem formUrlencoded_plain (bytes : Bytes) : PlainText (formUrlencoded bytes) := by
  apply plainText_of_forall
  intro c hc
  rw [formUrlencoded, String.toList_ofList] at hc
  obtain ⟨b, -, hc⟩ := List.mem_flatMap.mp hc
  exact formUrlencodedByte_plain b c hc

section Announces

variable {Url : Type} {display : Url → String} {percentEncode : Bytes → String}

/-- Both functions build a url that has all parameters just where the url of the tracker has
no question mark. -/
theorem announceUrl_carries_params_iff (hencode : ∀ bytes, PlainText (percentEncode bytes))
    {peerId : String} (hpeer : PlainText peerId) (announce : Url) (announceText : String)
    (length : UInt64) (infoHash : Sha1) (infoBytes : Bytes) (listenerPort : UInt16) :
    (CarriesParams (display announce)
        (Tracker.announceUrl display percentEncode peerId announce length infoHash listenerPort)
        (Tracker.announceParams percentEncode peerId length infoHash listenerPort) ↔
      '?' ∉ (display announce).toList) ∧
    (CarriesParams announceText
        (TrackerSupervisor.announceUrl percentEncode peerId announceText length infoBytes
          listenerPort)
        (TrackerSupervisor.announceParams percentEncode peerId length infoBytes listenerPort) ↔
      '?' ∉ announceText.toList) := by
  constructor
  · exact carriesParams_iff (List.cons_ne_nil _ _)
      (announceParams_plain hencode (by decide) hpeer length infoHash.bytes listenerPort)
  · exact carriesParams_iff (List.cons_ne_nil _ _)
      (announceParams_plain hencode (by decide) hpeer length infoBytes listenerPort)

end Announces

/-- Both urls carry the parameters where the tracker's has no query. -/
theorem announceUrl_carries_params :
    CarriesParams "http://t/announce"
      (Tracker.announceUrl id formUrlencoded "-BT-1" "http://t/announce" 5 (Sha1.replicate 63) 6881)
      (Tracker.announceParams formUrlencoded "-BT-1" 5 (Sha1.replicate 63) 6881) ∧
    CarriesParams "http://t/announce"
      (TrackerSupervisor.announceUrl formUrlencoded "-BT-1" "http://t/announce" 5 [63, 38] 6881)
      (TrackerSupervisor.announceParams formUrlencoded "-BT-1" 5 [63, 38] 6881) := by
  have h := @announceUrl_carries_params_iff String id formUrlencoded formUrlencoded_plain "-BT-1"
    (by decide) "http://t/announce" "http://t/announce" 5 (Sha1.replicate 63) [63, 38] 6881
  exact ⟨h.1.mpr (by decide), h.2.mpr (by decide)⟩

/-- Behind a passkey the length of the torrent is lost. -/
theorem announceUrl_of_passkey :
    (queryParams (Tracker.announceUrl id formUrlencoded "-BT-1" "http://t/announce?passkey=k" 5
      (Sha1.replicate 63) 6881)).head? = some ["passkey", "k?left", "5"] ∧
    ¬ CarriesParams "http://t/announce?passkey=k"
      (Tracker.announceUrl id formUrlencoded "-BT-1" "http://t/announce?passkey=k" 5
        (Sha1.replicate 63) 6881)
      (Tracker.announceParams formUrlencoded "-BT-1" 5 (Sha1.replicate 63) 6881) ∧
    ¬ CarriesParams "http://t/announce?passkey=k"
      (TrackerSupervisor.announceUrl formUrlencoded "-BT-1" "http://t/announce?passkey=k" 5
        [63, 38] 6881)
      (TrackerSupervisor.announceParams formUrlencoded "-BT-1" 5 [63, 38] 6881) := by
  have hmark : ¬ '?' ∉ "http://t/announce?passkey=k".toList := by decide
  refine ⟨by decide +kernel, ?_, ?_⟩
  · exact mt (carriesParams_iff (List.cons_ne_nil _ _)
      (announceParams_plain formUrlencoded_plain (by decide) (by decide) 5 _ 6881)).mp hmark
  · exact mt (carriesParams_iff (List.cons_ne_nil _ _)
      (announceParams_plain formUrlencoded_plain (by decide) (by decide) 5 _ 6881)).mp hmark

end TorrentClient
