import TorrentClient.NumericFields
import TorrentClient.PeerAddresses

/-!
# Peers from a tracker

A packed list of peers that is cut off makes the parser panic, and the address of a listed peer
is any text. A connection to such a peer panics where its address is parsed.
-/
namespace TorrentClient
open Bencode ListRanges

variable {i : Item} {v : Value}

theorem liftError_ne_panic {ε α : Type} {x : Except ε α} : liftError x ≠ .error .panic := by
  cases x <;> simp [liftError, Except.mapError]

theorem bind_eq_error {ε α β : Type} {x : Except ε α} {f : α → Except ε β} {e : ε} :
    (x >>= f) = .error e ↔ x = .error e ∨ ∃ a, x = .ok a ∧ f a = .error e := by
  cases x <;> simp

theorem exists_forall₂ {α β : Type} {r : α → β → Prop} {xs : List α} (h : ∀ x ∈ xs, ∃ y, r x y) :
    ∃ ys, List.Forall₂ r xs ys := by
  induction xs with
  | nil => exact ⟨[], .nil⟩
  | cons x xs ih =>
    obtain ⟨hhead, htail⟩ := List.forall_mem_cons.mp h
    obtain ⟨y, hy⟩ := hhead
    obtain ⟨ys, hys⟩ := ih htail
    exact ⟨y :: ys, .cons hy hys⟩

theorem exists_of_mem_left {α β : Type} {r : α → β → Prop} {xs : List α} {ys : List β}
    (h : List.Forall₂ r xs ys) {x : α} (hx : x ∈ xs) : ∃ y ∈ ys, r x y := by
  induction h with
  | nil => cases hx
  | cons hhead _ ih =>
    rcases List.mem_cons.mp hx with rfl | hx
    · exact ⟨_, List.mem_cons_self, hhead⟩
    · obtain ⟨y, hy, hr⟩ := ih hx
      exact ⟨y, List.mem_cons_of_mem _ hy, hr⟩

namespace Peer

/-- A connection to the peer finds an address. -/
def Addressed (p : Peer) : Prop := (parseAddress p.ip).isSome

theorem fromBytes_of_le {bs : Bytes} (h : 6 ≤ bs.length) :
    ∃ p, fromBytes bs = .ok p ∧ p.Addressed := by
  obtain ⟨a, b, c, d, e, f, rest, rfl⟩ :
      ∃ a b c d e f rest, bs = a :: b :: c :: d :: e :: f :: rest := by
    match bs, h with
    | a :: b :: c :: d :: e :: f :: rest, _ => exact ⟨a, b, c, d, e, f, rest, rfl⟩
  refine ⟨_, rfl, ?_⟩
  rw [Addressed, parseAddress_eq_some.mpr rfl]
  rfl

theorem fromBytes_of_lt {bs : Bytes} (h : bs.length < 6) : fromBytes bs = .error .panic := by
  match bs, h with
  | [], _ => rfl
  | [_], _ => rfl
  | [_, _], _ => rfl
  | [_, _, _], _ => rfl
  | [_, _, _, _], _ => rfl
  | [_, _, _, _, _], _ => rfl

/-- The peers of a byte string, where its length allows it. -/
theorem mapM_fromBytes (b : Bytes) :
    (6 ∣ b.length ∧ ∃ peers, (chunks 6 b).mapM fromBytes = .ok peers ∧
      ∀ p ∈ peers, p.Addressed) ∨
    (¬ 6 ∣ b.length ∧ (chunks 6 b).mapM fromBytes = .error .panic) := by
  induction b using chunks.induct (n := 6) with
  | case1 b hpos ih =>
    rw [chunks, dif_pos hpos, List.mapM_cons]
    rcases Nat.lt_or_ge b.length 6 with hlt | hge
    · have hshort : (b.take 6).length < 6 := by
        rw [List.length_take]
        omega
      rw [fromBytes_of_lt hshort]
      exact Or.inr ⟨by omega, rfl⟩
    · have hfull : 6 ≤ (b.take 6).length := by
        rw [List.length_take]
        omega
      obtain ⟨p, hp, haddress⟩ := fromBytes_of_le hfull
      rw [hp, List.length_drop] at *
      rcases ih with ⟨hdvd, peers, hpeers, hall⟩ | ⟨hdvd, hpanic⟩
      · rw [hpeers]
        exact Or.inl ⟨by omega, p :: peers, rfl, List.forall_mem_cons.mpr ⟨haddress, hall⟩⟩
      · rw [hpanic]
        exact Or.inr ⟨by omega, rfl⟩
  | case2 b hempty =>
    have hnil : b = [] := List.eq_nil_of_length_eq_zero (by omega)
    rw [chunks, dif_neg hempty, hnil]
    exact Or.inl ⟨Nat.dvd_zero 6, [], rfl, List.forall_mem_nil _⟩

/-- The peer is what an item of the list is read as. -/
def Listed (i : Item) (p : Peer) : Prop :=
  textAt i "ip" = some p.ip ∧
    ∃ z, integerAt i "port" = some z ∧ (Int64.ofInt z).toUInt64.toUInt16 = p.port

theorem readsInteger_toUInt16 :
    ReadsInteger Value.toUInt16 fun x => x.toUInt64.toUInt16 := by
  refine ⟨fun _ => rfl, ?_⟩
  intro v n h
  cases v with
  | integer x => exact ⟨x, rfl⟩
  | _ => cases h

theorem fromValue_iff {p : Peer} (h : Means i v) : fromValue v = .ok p ↔ Listed i p := by
  simp only [fromValue, bind_eq_ok, h.getText_iff, readsInteger_toUInt16.getField_iff h]
  constructor
  · rintro ⟨ip, hip, port, hport, hp⟩
    cases hp
    exact ⟨hip, hport⟩
  · rintro ⟨hip, hport⟩
    exact ⟨p.ip, hip, p.port, hport, rfl⟩

end Peer

namespace TrackerResponse

theorem readsInteger_toUInt32 :
    ReadsInteger Value.toUInt32 fun x => x.toUInt64.toUInt32 := by
  refine ⟨fun _ => rfl, ?_⟩
  intro v n h
  cases v with
  | integer x => exact ⟨x, rfl⟩
  | _ => cases h

/-- A response that lists its peers and has its fields. -/
structure Lists (i : Item) (items : List Item) : Prop where
  peers : i.entry (asBytes "peers") = some (.list items)
  texts : ∀ p ∈ items, (textAt p "ip").isSome
  ports : ∀ p ∈ items, (integerAt p "port").isSome
  interval : (integerAt i "interval").isSome
  minInterval : i.entry (asBytes "min interval") = none ∨ (integerAt i "min interval").isSome
  complete : (integerAt i "complete").isSome
  incomplete : (integerAt i "incomplete").isSome

/-- The packed peers are cut off, or a listed peer has no address. -/
inductive Harmful (i : Item) : Prop where
  | packed {b : Bytes} (peers : i.entry (asBytes "peers") = some (.string b))
      (binary : fromUtf8 b = none) (cut : ¬ 6 ∣ b.length)
  | listed {items : List Item} (lists : Lists i items) {p : Item} (mem : p ∈ items) {ip : String}
      (text : textAt p "ip" = some ip) (address : parseAddress ip = none)

/-- The parser does not panic, and every peer it returns has an address. -/
def ParsesSafely (bytes : Bytes) : Prop :=
  parse bytes ≠ .error .panic ∧ ∀ r, parse bytes = .ok r → ∀ p ∈ r.peers, p.Addressed

theorem readPeers_eq_panic {w : Value} :
    readPeers w = .error .panic ↔ ∃ b, w = .bytes b ∧ ¬ 6 ∣ b.length := by
  cases w with
  | list items => simp [readPeers, liftError_ne_panic]
  | bytes b =>
    rw [readPeers]
    rcases Peer.mapM_fromBytes b with ⟨hdvd, peers, hpeers, -⟩ | ⟨hdvd, hpanic⟩
    · rw [hpeers]
      simp [hdvd]
    · rw [hpanic]
      simp [hdvd]
  | _ => simp [readPeers]

theorem fromValue_eq_panic : fromValue v = .error .panic ↔
    ∃ b, v.entry "peers" = some (.bytes b) ∧ ¬ 6 ∣ b.length := by
  simp only [fromValue_eq, bind_eq_error, liftError_ne_panic, liftError_eq_ok,
    Value.getValue_eq_ok, readPeers_eq_panic, pure, Except.pure, reduceCtorEq, false_or, and_false,
    exists_false, or_false]
  constructor
  · rintro ⟨_, hw, b, rfl, hdvd⟩
    exact ⟨b, hw, hdvd⟩
  · rintro ⟨b, hw, hdvd⟩
    exact ⟨_, hw, b, rfl, hdvd⟩

/-- The responses that list their peers are accepted. -/
theorem exists_of_lists (h : Means i v) {items : List Item} (hlists : Lists i items) :
    ∃ r, fromValue v = .ok r ∧ List.Forall₂ Peer.Listed items r.peers := by
  obtain ⟨w, hw, hmeans⟩ := h.value_of_some hlists.peers
  obtain ⟨map, rfl⟩ := Value.dict_of_entry hw
  cases hmeans with
  | @list _ vs hitems =>
    have hpeers : ∀ p ∈ items, ∃ peer, Peer.Listed p peer := by
      intro p hp
      obtain ⟨ip, hip⟩ := Option.isSome_iff_exists.mp (hlists.texts p hp)
      obtain ⟨z, hz⟩ := Option.isSome_iff_exists.mp (hlists.ports p hp)
      exact ⟨⟨ip, _⟩, hip, z, hz, rfl⟩
    obtain ⟨peers, hpeers⟩ := exists_forall₂ hpeers
    have hread : readPeers (.list vs) = .ok peers :=
      liftError_eq_ok.mpr ((hitems.mapM_iff fun _ _ _ => Peer.fromValue_iff).mpr hpeers)
    obtain ⟨interval, hinterval⟩ := (readsInteger_toUInt32.exists_getField h).mpr hlists.interval
    obtain ⟨minInterval, hmin⟩ :=
      (readsInteger_toUInt32.exists_getOptionField h).mpr hlists.minInterval
    obtain ⟨complete, hcomplete⟩ := (readsInteger_toUInt32.exists_getField h).mpr hlists.complete
    obtain ⟨incomplete, hincomplete⟩ :=
      (readsInteger_toUInt32.exists_getField h).mpr hlists.incomplete
    refine ⟨⟨interval, minInterval, complete, incomplete, peers⟩, ?_, hpeers⟩
    exact fromValue_eq_ok.mpr ⟨⟨_, hw, hread⟩, hinterval, hmin, hcomplete, hincomplete⟩

theorem lists_of_fromValue (h : Means i v) {vs : List Value} (hw : v.entry "peers" = some (.list vs))
    {r : TrackerResponse} (hr : fromValue v = .ok r) :
    ∃ items, Lists i items ∧ List.Forall₂ Peer.Listed items r.peers := by
  obtain ⟨⟨w', hw', hpeers⟩, hinterval, hmin, hcomplete, hincomplete⟩ := fromValue_eq_ok.mp hr
  cases hw.symm.trans hw'
  obtain ⟨map, rfl⟩ := Value.dict_of_entry hw
  obtain ⟨j, hj, hmeans⟩ := h.entry_of_some hw
  obtain ⟨items, rfl, hitems⟩ := hmeans.eq_of_list
  have hall := (hitems.mapM_iff fun _ _ _ => Peer.fromValue_iff).mp (liftError_eq_ok.mp hpeers)
  refine ⟨items, ⟨hj, ?_, ?_, ?_, ?_, ?_, ?_⟩, hall⟩
  · intro p hp
    obtain ⟨peer, -, hip, -⟩ := exists_of_mem_left hall hp
    exact Option.isSome_of_eq_some hip
  · intro p hp
    obtain ⟨peer, -, -, z, hz, -⟩ := exists_of_mem_left hall hp
    exact Option.isSome_of_eq_some hz
  · exact (readsInteger_toUInt32.exists_getField h).mp ⟨_, hinterval⟩
  · exact (readsInteger_toUInt32.exists_getOptionField h).mp ⟨_, hmin⟩
  · exact (readsInteger_toUInt32.exists_getField h).mp ⟨_, hcomplete⟩
  · exact (readsInteger_toUInt32.exists_getField h).mp ⟨_, hincomplete⟩

theorem harmful_iff (h : Means i v) : Harmful i ↔
    fromValue v = .error .panic ∨ ∃ r, fromValue v = .ok r ∧ ∃ p ∈ r.peers, ¬ p.Addressed := by
  constructor
  · rintro (⟨hpeers, hbinary, hcut⟩ | ⟨hlists, hmem, htext, haddress⟩)
    · obtain ⟨w, hw, hmeans⟩ := h.value_of_some hpeers
      cases hmeans with
      | string bytes =>
        rw [stringValue, hbinary] at hw
        exact Or.inl (fromValue_eq_panic.mpr ⟨_, hw, hcut⟩)
    · obtain ⟨r, hr, hall⟩ := exists_of_lists h hlists
      obtain ⟨peer, hpeer, hip, -⟩ := exists_of_mem_left hall hmem
      cases htext.symm.trans hip
      refine Or.inr ⟨r, hr, peer, hpeer, ?_⟩
      rw [Peer.Addressed, haddress]
      exact Bool.false_ne_true
  · rintro (hpanic | ⟨r, hr, peer, hpeer, haddress⟩)
    · obtain ⟨b, hw, hcut⟩ := fromValue_eq_panic.mp hpanic
      obtain ⟨j, hj, hmeans⟩ := h.entry_of_some hw
      obtain ⟨rfl, hbinary⟩ := hmeans.eq_of_bytes
      exact .packed hj hbinary hcut
    · obtain ⟨⟨w, hw, hpeers⟩, -⟩ := fromValue_eq_ok.mp hr
      cases w with
      | list vs =>
        obtain ⟨items, hlists, hall⟩ := lists_of_fromValue h hw hr
        obtain ⟨p, hp, hip, -⟩ := exists_of_mem_left hall.flip hpeer
        exact .listed hlists hp hip (Option.not_isSome_iff_eq_none.mp haddress)
      | bytes b =>
        rcases Peer.mapM_fromBytes b with ⟨-, peers, hok, hall⟩ | ⟨-, hpanic⟩
        · cases hok.symm.trans hpeers
          exact absurd (hall peer hpeer) haddress
        · cases hpanic.symm.trans hpeers
      | _ => cases hpeers

theorem parse_of_decode {bytes : Bytes} {d : Decoder}
    (h : Value.decode (Decoder.new bytes) = .ok v d) : parse bytes = fromValue v := by
  rw [parse, h]

/-- A response is parsed without a panic, and to peers with addresses, exactly when its bytes do
not begin with a dictionary whose packed peers are cut off and not valid UTF-8, and not with a
complete response that lists a peer without an address. -/
theorem parsesSafely_iff {bytes : Bytes} (hlen : bytes.length < 2 ^ 63) :
    ParsesSafely bytes ↔ ∀ i v, Begins bytes i → Means i v → ¬ Harmful i := by
  have hd : (Decoder.new bytes).InSlice := by
    rw [Decoder.InSlice, Decoder.new, Nat.zero_add]
    exact hlen
  constructor
  · rintro ⟨hpanic, haddressed⟩ i v ⟨-, r, hr⟩ hmeans hharmful
    have hmoves : (Decoder.new bytes).Moves i.spell ⟨i.spell.length, r⟩ :=
      ⟨hr.symm, (Nat.zero_add _).symm⟩
    rw [parse_of_decode ((decode_iff hd).mpr ⟨i, hmoves, hmeans⟩)] at hpanic haddressed
    rcases (harmful_iff hmeans).mp hharmful with h | ⟨r, hr, p, hp, haddress⟩
    · exact hpanic h
    · exact haddress (haddressed r hr p hp)
  · intro hsafe
    cases hdecode : Value.decode (Decoder.new bytes) with
    | error e d =>
      have hparse : parse bytes = .error e := by rw [parse, hdecode]
      rw [ParsesSafely, hparse]
      constructor
      · intro heq
        cases heq
        exact (Advances.decode hd).of_panic hdecode
      · intro r hr
        cases hr
    | ok v d =>
      obtain ⟨i, honly, hmeans⟩ := item_of_decode hlen hdecode
      have hgood := hsafe i v ((honly i).mpr rfl) hmeans
      rw [harmful_iff hmeans] at hgood
      rw [ParsesSafely, parse_of_decode hdecode]
      refine ⟨fun hpanic => hgood (Or.inl hpanic), ?_⟩
      intro r hr p hp
      by_contra haddress
      exact hgood (Or.inr ⟨r, hr, p, hp, haddress⟩)

theorem not_harmful_response {peers : Item}
    (hpacked : ∀ b, peers = .string b → 6 ∣ b.length)
    (hlisted : ∀ items, peers = .list items → ∀ p ∈ items, ∀ ip, textAt p "ip" = some ip →
      parseAddress ip ≠ none) :
    ¬ Harmful (response [57, 48] peers) := by
  have hpeers : (response [57, 48] peers).entry (asBytes "peers") = some peers := rfl
  rintro (⟨hstring, -, hcut⟩ | ⟨hlists, hmem, htext, haddress⟩)
  · exact hcut (hpacked _ (Option.some.inj (hpeers.symm.trans hstring)))
  · exact hlisted _ (Option.some.inj (hpeers.symm.trans hlists.peers)) _ hmem _ htext haddress

/-- Packed peers that are no text, and a peer in a list. -/
theorem parsesSafely_iff_peers :
    ParsesSafely (response [57, 48] (.string [10, 0, 0, 1, 26, 225])).spell ∧
      ParsesSafely (response [57, 48] (.list [listedPeer])).spell := by
  constructor
  · apply (parsesSafely_iff (by decide +kernel)).mpr
    rintro i v hbegins -
    have hdelimited : (response [57, 48] (.string [10, 0, 0, 1, 26, 225])).Delimited :=
      delimited_response (by decide) trivial
    obtain rfl := hbegins.unique ⟨hdelimited, List.prefix_refl _⟩
    apply not_harmful_response
    · rintro b hb
      cases hb
      decide
    · exact nofun
  · apply (parsesSafely_iff (by decide +kernel)).mpr
    rintro i v hbegins -
    have hdelimited : (response [57, 48] (.list [listedPeer])).Delimited :=
      delimited_response (by decide) ⟨trivial, delimited_listedPeer, trivial⟩
    obtain rfl := hbegins.unique ⟨hdelimited, List.prefix_refl _⟩
    have hip : textAt listedPeer "ip" = some "10.0.0.1" := by decide +kernel
    have haddress : parseAddress "10.0.0.1" = some (10, 0, 0, 1) := by decide +kernel
    apply not_harmful_response
    · exact nofun
    · intro items hitems p hp ip htext
      cases hitems
      obtain rfl := List.mem_singleton.mp hp
      cases hip.symm.trans htext
      rw [haddress]
      exact Option.some_ne_none _

/-- Three bytes instead of six are indexed out of range, and a host name is no address. -/
theorem harmful_responses :
    ¬ ParsesSafely (response [57, 48] (.string [10, 0, 255])).spell ∧
      ¬ ParsesSafely (response [57, 48] (.list [.dict [(asBytes "ip", .string (asBytes "host")),
        (asBytes "port", .integer [56, 48])]])).spell := by
  constructor
  · intro h
    apply h.1
    decide +kernel
  · intro h
    have hparse : parse (response [57, 48] (.list [.dict [(asBytes "ip", .string (asBytes "host")),
        (asBytes "port", .integer [56, 48])]])).spell =
          .ok ⟨90, none, 5, 1, [⟨"host", 80⟩]⟩ := by decide +kernel
    have haddress := h.2 _ hparse ⟨"host", 80⟩ List.mem_cons_self
    have hnone : parseAddress "host" = none := by decide +kernel
    rw [Peer.Addressed, hnone] at haddress
    cases haddress

end TrackerResponse
end TorrentClient
