import Mathlib.Data.List.Basic
import Mathlib.Tactic.IntervalCases
import MethodTrace.Event.Basic

/-!
# Records as bytes, events as records

The layout of a record in 24 bytes loses nothing in either direction (`layout_toBytes`,
`toBytes_layout`), so which bytes are refused, and why, can be read off the bytes: `Legible`, `Fault`.

An event comes back from its record unless it carries a value that its kind does not allow
(`decode_encode`). The converse fails: kind and payload are looked at one without the other, so more
records decode than are ever written. What encoding makes of them is `Record.normalize`.
-/

namespace MethodTrace

namespace LittleEndian

theorem toBytes_of_length {w : Nat} {l : List UInt8} (h : l.length = w) :
    toBytes w (ofBytes l) = l :=
  h ▸ toBytes_ofBytes l

theorem ofBytes_lt_of_length {w : Nat} {l : List UInt8} (h : l.length = w) :
    ofBytes l < capacity w :=
  h ▸ ofBytes_lt l

theorem drop_toBytes {w k : Nat} (h : w ≤ k) (n : Nat) : (toBytes w n).drop k = [] :=
  List.drop_eq_nil_of_le (by rwa [length_toBytes])

theorem toNat_toUInt64 {l : List UInt8} (h : l.length = 8) :
    (ofBytes l).toUInt64.toNat = ofBytes l :=
  Nat.mod_eq_of_lt (ofBytes_lt_of_length h)

theorem toBytes_toUInt64 {l : List UInt8} (h : l.length = 8) :
    toBytes 8 (ofBytes l).toUInt64.toNat = l := by
  rw [toNat_toUInt64 h, toBytes_of_length h]

theorem toBytes_toUInt32 {l : List UInt8} (h : l.length = 4) :
    toBytes 4 (ofBytes l).toUInt32.toNat = l := by
  have hlt : (ofBytes l).toUInt32.toNat = ofBytes l := Nat.mod_eq_of_lt (ofBytes_lt_of_length h)
  rw [hlt, toBytes_of_length h]

theorem toBytes_toUInt16 {l : List UInt8} (h : l.length = 2) :
    toBytes 2 (ofBytes l).toUInt16.toNat = l := by
  have hlt : (ofBytes l).toUInt16.toNat = ofBytes l := Nat.mod_eq_of_lt (ofBytes_lt_of_length h)
  rw [hlt, toBytes_of_length h]

end LittleEndian

/-! ### The layout -/

namespace Record

open LittleEndian

theorem layout_toBytes (r : Record) (rest : List UInt8) : layout (r.toBytes ++ rest) = r := by
  have h64 (n : UInt64) : ofBytes (LittleEndian.toBytes 8 n.toNat) = n.toNat :=
    ofBytes_toBytes n.toNat_lt
  have h32 : ofBytes (LittleEndian.toBytes 4 r.thread.toNat) = r.thread.toNat :=
    ofBytes_toBytes r.thread.toNat_lt
  have h16 : ofBytes (LittleEndian.toBytes 2 r.method.toNat) = r.method.toNat :=
    ofBytes_toBytes r.method.toNat_lt
  simp [layout, toBytes, List.drop_append, drop_toBytes, h64, h32, h16]

/-- The two bytes that are not part of a number. -/
theorem getElem?_layout {bytes : List UInt8} (h : recordSize ≤ bytes.length) :
    bytes[22]? = some (layout bytes).kind ∧ bytes[23]? = some (layout bytes).payloadTag := by
  have h24 : 24 ≤ bytes.length := h
  have hget {i : Nat} (hi : i < bytes.length) : bytes[i]? = some ((bytes.drop i).headD 0) := by
    rw [List.headD_eq_head?_getD, List.head?_drop, List.getElem?_eq_getElem hi]
    rfl
  exact ⟨hget (by omega), hget (by omega)⟩

theorem payload_layout {bytes : List UInt8} (h : recordSize ≤ bytes.length) :
    (layout bytes).payload.toNat = ofBytes ((bytes.drop 8).take 8) := by
  have h24 : 24 ≤ bytes.length := h
  exact toNat_toUInt64 (by rw [List.length_take, List.length_drop]; omega)

theorem toBytes_layout {bytes : List UInt8} (h : recordSize ≤ bytes.length) :
    (layout bytes).toBytes = bytes.take recordSize := by
  have h24 : 24 ≤ bytes.length := h
  have hlength (i n : Nat) (hi : i + n ≤ 24) : ((bytes.drop i).take n).length = n := by
    rw [List.length_take, List.length_drop]
    omega
  have hlast : (bytes.drop 22).take 2 = [(layout bytes).kind, (layout bytes).payloadTag] := by
    obtain ⟨hkind, htag⟩ := getElem?_layout h
    refine List.ext_getElem? fun i => ?_
    rcases i with _ | _ | i
    · simpa using hkind
    · simpa using htag
    · simp only [List.getElem?_take, List.getElem?_cons_succ, List.getElem?_nil]
      exact if_neg (by omega)
  rw [toBytes, show recordSize = 8 + 8 + 4 + 2 + 2 from rfl]
  rw [List.take_add, List.take_add, List.take_add, List.take_add, ← hlast]
  congr 4
  · exact toBytes_toUInt64 (hlength 0 8 (by omega))
  · exact toBytes_toUInt64 (hlength 8 8 (by omega))
  · exact toBytes_toUInt32 (hlength 16 4 (by omega))
  · exact toBytes_toUInt16 (hlength 20 2 (by omega))

theorem layout_append {bytes : List UInt8} (h : recordSize ≤ bytes.length) (rest : List UInt8) :
    layout (bytes ++ rest) = layout bytes := by
  conv_lhs => rw [← List.take_append_drop recordSize bytes, ← toBytes_layout h, List.append_assoc]
  exact layout_toBytes _ _

end Record

/-! ### What a reader takes -/

/-- The nine codes. -/
theorem Kind.exists_eq_code_iff {b : UInt8} : (∃ k : Kind, b = k.code) ↔ 1 ≤ b ∧ b ≤ 9 := by
  constructor
  · rintro ⟨k, rfl⟩
    cases k <;> decide
  · rintro ⟨hlow, hhigh⟩
    have hlow : 1 ≤ b.toNat := hlow
    have hhigh : b.toNat ≤ 9 := hhigh
    rw [← UInt8.ofNat_toNat (x := b)]
    generalize b.toNat = n at hlow hhigh ⊢
    interval_cases n
    exacts [⟨rootEntry, rfl⟩, ⟨rootExit, rfl⟩, ⟨methodEntry, rfl⟩, ⟨methodExit, rfl⟩,
      ⟨markerEntry, rfl⟩, ⟨markerExit, rfl⟩, ⟨threadsSuspended, rfl⟩, ⟨threadsResumed, rfl⟩,
      ⟨threadCreated, rfl⟩]

namespace ReturnValue
variable {tag : UInt8} {payload : UInt64} {ret : Option ReturnValue}

theorem char?_eq_none_iff : char? payload = none ↔ ¬payload.toNat.isValidChar := by
  by_cases hvalid : payload.toNat.isValidChar
  · rw [char?, dif_pos hvalid]
    exact iff_of_false (Option.some_ne_none _) (not_not_intro hvalid)
  · rw [char?, dif_neg hvalid]
    exact iff_of_true rfl hvalid

theorem payload_of_char? {c : Char} (h : char? payload = some c) :
    (ReturnValue.char c).payload = payload := by
  have hvalid : payload.toNat.isValidChar := by
    by_contra hinvalid
    rw [char?_eq_none_iff.mpr hinvalid] at h
    cases h
  rw [char?, dif_pos hvalid, Option.some_inj] at h
  subst h
  refine UInt64.toNat_inj.mp ?_
  rw [ReturnValue.payload, UInt32.toNat_toUInt64]
  rfl

theorem ofRaw_payload (v : ReturnValue) : ofRaw v.tag v.payload = .ok (some v) := by
  cases v with
  | bool b => cases b <;> rfl
  | char c =>
    have hnat : (ReturnValue.char c).payload.toNat = c.toNat := by
      simp only [payload, UInt32.toNat_toUInt64]
      rfl
    have hvalid : (ReturnValue.char c).payload.toNat.isValidChar := hnat ▸ c.valid
    have hchar : char? (ReturnValue.char c).payload = some c := by
      rw [char?, dif_pos hvalid]
      exact congrArg some (Char.ext (UInt32.toNat_inj.mp hnat))
    simp [ofRaw, tag, hchar]
  | int i => simp [ofRaw, tag, payload]
  | float x => rfl
  | object id => rfl

theorem tag_cases (h : tag ≤ 5) :
    tag = 0 ∨ tag = 1 ∨ tag = 2 ∨ tag = 3 ∨ tag = 4 ∨ tag = 5 := by
  have h : tag.toNat ≤ 5 := h
  simp only [← UInt8.toNat_inj, UInt8.reduceToNat]
  omega

/-- Only for characters does it matter what the payload is. -/
theorem exists_ofRaw_eq (htag : tag ≤ 5) (hchar : tag = 2 → payload.toNat.isValidChar) :
    ∃ ret, ofRaw tag payload = .ok ret := by
  rcases tag_cases htag with rfl | rfl | rfl | rfl | rfl | rfl
  · exact ⟨_, rfl⟩
  · exact ⟨_, rfl⟩
  · have hne : char? payload ≠ none := fun h => char?_eq_none_iff.mp h (hchar rfl)
    obtain ⟨c, hc⟩ := Option.ne_none_iff_exists'.mp hne
    exact ⟨some (char c), by simp [ofRaw, hc]⟩
  · exact ⟨_, rfl⟩
  · exact ⟨_, rfl⟩
  · exact ⟨_, rfl⟩

theorem ofRaw_of_lt_tag (h : 5 < tag) : ofRaw tag payload = .error (.unknownPayloadTag tag) := by
  have hne (n : UInt8) (hn : n ≤ 5) : tag ≠ n := fun he => absurd (he ▸ h) (UInt8.not_lt.mpr hn)
  simp [ofRaw, hne]

theorem ofRaw_of_not_isValidChar (h : ¬payload.toNat.isValidChar) :
    ofRaw 2 payload = .error (.invalidChar payload) := by
  simp [ofRaw, char?_eq_none_iff.mpr h]

/-- The payload with which is written what was read from `tag` and `payload`. -/
def normalize (tag : UInt8) (payload : UInt64) : UInt64 :=
  if tag = 0 then 0 else if tag = 1 ∧ payload ≠ 0 then 1 else payload

theorem normalize_eq_iff :
    normalize tag payload = payload ↔ (tag = 1 → payload ≤ 1) ∧ (tag = 0 → payload = 0) := by
  unfold normalize
  split_ifs with h0 h1
  · subst h0
    simp [eq_comm]
  · obtain ⟨rfl, hne⟩ := h1
    have hpos : payload.toNat ≠ 0 := fun h => hne (UInt64.toNat_inj.mp h)
    constructor
    · rintro rfl
      exact ⟨fun _ => UInt64.le_refl 1, fun h => absurd h h0⟩
    · rintro ⟨hle, -⟩
      have hle : payload.toNat ≤ 1 := hle rfl
      exact UInt64.toNat_inj.mp (show 1 = payload.toNat by omega)
  · refine iff_of_true rfl ⟨fun htag => ?_, fun h => absurd h h0⟩
    obtain rfl : payload = 0 := by
      by_contra hne
      exact h1 ⟨htag, hne⟩
    decide

theorem elim_of_ofRaw (h : ofRaw tag payload = .ok ret) :
    ret.elim 0 ReturnValue.tag = tag ∧
      ret.elim 0 ReturnValue.payload = normalize tag payload := by
  have htag : tag ≤ 5 := by
    by_contra hlt
    rw [ofRaw_of_lt_tag (UInt8.not_le.mp hlt)] at h
    cases h
  rcases tag_cases htag with rfl | rfl | rfl | rfl | rfl | rfl
  · cases h
    exact ⟨rfl, rfl⟩
  · cases h
    refine ⟨rfl, ?_⟩
    by_cases hp : payload = 0 <;> simp [ReturnValue.payload, normalize, hp]
  · rcases hc : char? payload with _ | c
    · simp [ofRaw, hc] at h
    · simp only [ofRaw, hc] at h
      cases h
      exact ⟨rfl, payload_of_char? hc⟩
  · cases h
    exact ⟨rfl, by simp [ReturnValue.payload, normalize]⟩
  · cases h
    exact ⟨rfl, rfl⟩
  · cases h
    exact ⟨rfl, rfl⟩

end ReturnValue

namespace Event
variable {r : Record} {e : Event}

/-- Only exits carry a value. -/
theorem decode_encode (e : Event) :
    decode e.encode = .ok { e with ret := if e.kind.isExit then e.ret else none } := by
  obtain ⟨k, m, no, time, ret⟩ := e
  have hkind : (encode ⟨k, m, no, time, ret⟩).kind? = .ok k := by
    rw [Record.kind?, encode, Kind.ofCode?_code]
  have hret : (encode ⟨k, m, no, time, ret⟩).returnValue =
      .ok (if k.isExit then ret else none) := by
    rw [Record.returnValue, encode]
    cases hk : k.isExit with
    | false => rfl
    | true =>
      cases ret with
      | none => rfl
      | some v => exact v.ofRaw_payload
  rw [decode, hkind, hret]
  rfl

/-- Kind and value are decoded each for itself, the other fields are taken as they are. -/
theorem decode_eq_ok_iff : decode r = .ok e ↔
    r.kind = e.kind.code ∧ ReturnValue.ofRaw r.payloadTag r.payload = .ok e.ret ∧
      e.method = ⟨r.method⟩ ∧ e.thread = ⟨r.thread⟩ ∧ e.timestamp = ⟨r.timestamp⟩ := by
  obtain ⟨k, m, no, time, ret⟩ := e
  rw [decode, Record.kind?, Record.returnValue]
  constructor
  · intro h
    rcases hk : Kind.ofCode? r.kind with _ | k'
    · rw [hk] at h
      cases h
    rcases hret : ReturnValue.ofRaw r.payloadTag r.payload with _ | ret'
    · rw [hk, hret] at h
      cases h
    rw [hk, hret] at h
    cases h
    exact ⟨Kind.ofCode?_eq_some_iff.mp hk, rfl, rfl, rfl, rfl⟩
  · rintro ⟨hk, hret, rfl, rfl, rfl⟩
    rw [Kind.ofCode?_eq_some_iff.mpr hk, hret]
    rfl

end Event

namespace Record
variable {r : Record} {bytes : List UInt8} {x : DecodeError}

open LittleEndian

/-- A reader decodes what is laid out, but keeps it as it is. -/
theorem ofBytes?_of_le (h : recordSize ≤ bytes.length) :
    ofBytes? bytes = (Event.decode (layout bytes)).map fun _ => layout bytes := by
  rw [ofBytes?, if_neg (Nat.not_lt.mpr h), Event.decode]
  change (do let _ ← (layout bytes).kind?; let _ ← (layout bytes).returnValue; return _) = _
  rcases (layout bytes).kind? with _ | k
  · rfl
  · rcases (layout bytes).returnValue with _ | ret <;> rfl

theorem ofBytes?_toBytes_append (r : Record) (rest : List UInt8) :
    ofBytes? (r.toBytes ++ rest) = (Event.decode r).map fun _ => r := by
  rw [ofBytes?_of_le (by simp), layout_toBytes]

/-- Bytes that begin with a record. -/
structure Legible (bytes : List UInt8) : Prop where
  long : recordSize ≤ bytes.length
  kind : ∃ b, bytes[22]? = some b ∧ 1 ≤ b ∧ b ≤ 9
  tag : ∃ b, bytes[23]? = some b ∧ b ≤ 5
  char : bytes[23]? = some 2 → (ofBytes ((bytes.drop 8).take 8)).isValidChar

/-- Why bytes are refused. What is wrong with the kind comes before what is wrong with the value. -/
inductive Fault (bytes : List UInt8) : DecodeError → Prop
  | truncated (h : bytes.length < recordSize) : Fault bytes (.truncated bytes.length)
  | kind {b : UInt8} (h : recordSize ≤ bytes.length) (hb : bytes[22]? = some b)
    (hk : ¬(1 ≤ b ∧ b ≤ 9)) : Fault bytes (.unknownKind b)
  | tag {b : UInt8} (h : recordSize ≤ bytes.length)
    (hk : ∃ b, bytes[22]? = some b ∧ 1 ≤ b ∧ b ≤ 9) (hb : bytes[23]? = some b) (ht : 5 < b) :
    Fault bytes (.unknownPayloadTag b)
  | char (h : recordSize ≤ bytes.length) (hk : ∃ b, bytes[22]? = some b ∧ 1 ≤ b ∧ b ≤ 9)
    (hb : bytes[23]? = some 2) (hc : ¬(ofBytes ((bytes.drop 8).take 8)).isValidChar) :
    Fault bytes (.invalidChar (ofBytes ((bytes.drop 8).take 8)).toUInt64)

theorem legible_or_fault (bytes : List UInt8) : Legible bytes ∨ ∃ x, Fault bytes x := by
  by_cases hlong : recordSize ≤ bytes.length
  swap
  · exact .inr ⟨_, .truncated (Nat.not_le.mp hlong)⟩
  obtain ⟨hkind, htag⟩ := getElem?_layout hlong
  by_cases hk : 1 ≤ (layout bytes).kind ∧ (layout bytes).kind ≤ 9
  swap
  · exact .inr ⟨_, .kind hlong hkind hk⟩
  by_cases ht : (layout bytes).payloadTag ≤ 5
  swap
  · exact .inr ⟨_, .tag hlong ⟨_, hkind, hk⟩ htag (UInt8.not_le.mp ht)⟩
  by_cases hc : bytes[23]? = some 2 → (ofBytes ((bytes.drop 8).take 8)).isValidChar
  · exact .inl ⟨hlong, ⟨_, hkind, hk⟩, ⟨_, htag, ht⟩, hc⟩
  · obtain ⟨hb, hc⟩ := Classical.not_imp.mp hc
    exact .inr ⟨_, .char hlong ⟨_, hkind, hk⟩ hb hc⟩

theorem kind?_layout (h : recordSize ≤ bytes.length)
    (hk : ∃ b, bytes[22]? = some b ∧ 1 ≤ b ∧ b ≤ 9) : ∃ k, (layout bytes).kind? = .ok k := by
  obtain ⟨b, hb, hrange⟩ := hk
  obtain ⟨k, rfl⟩ := Kind.exists_eq_code_iff.mpr hrange
  rw [(getElem?_layout h).1, Option.some_inj] at hb
  exact ⟨k, by rw [kind?, hb, Kind.ofCode?_code]⟩

theorem ofBytes?_of_legible (h : Legible bytes) : ofBytes? bytes = .ok (layout bytes) := by
  obtain ⟨k, hk⟩ := kind?_layout h.long h.kind
  obtain ⟨b, hb, ht⟩ := h.tag
  have htag := (getElem?_layout h.long).2
  obtain rfl : (layout bytes).payloadTag = b := Option.some_inj.mp (htag.symm.trans hb)
  have hchar (h2 : (layout bytes).payloadTag = 2) : (layout bytes).payload.toNat.isValidChar := by
    rw [payload_layout h.long]
    exact h.char (by rw [htag, h2])
  obtain ⟨ret, hret⟩ := ReturnValue.exists_ofRaw_eq ht hchar
  have hreturn : (layout bytes).returnValue = .ok ret := hret
  rw [ofBytes?_of_le h.long, Event.decode, hk, hreturn]
  rfl

theorem ofBytes?_of_fault (h : Fault bytes x) : ofBytes? bytes = .error x := by
  cases h with
  | truncated h => rw [ofBytes?, if_pos h]; rfl
  | kind h hb hk =>
    rw [(getElem?_layout h).1, Option.some_inj] at hb
    subst hb
    have hnone : Kind.ofCode? (layout bytes).kind = none := by
      by_contra hne
      obtain ⟨k, hk'⟩ := Option.ne_none_iff_exists'.mp hne
      exact hk (Kind.exists_eq_code_iff.mp ⟨k, Kind.ofCode?_eq_some_iff.mp hk'⟩)
    rw [ofBytes?_of_le h, Event.decode, kind?, hnone]
    rfl
  | tag h hk hb ht =>
    obtain ⟨k, hk⟩ := kind?_layout h hk
    rw [(getElem?_layout h).2, Option.some_inj] at hb
    subst hb
    rw [ofBytes?_of_le h, Event.decode, hk, returnValue, ReturnValue.ofRaw_of_lt_tag ht]
    rfl
  | char h hk hb hc =>
    obtain ⟨k, hk⟩ := kind?_layout h hk
    rw [(getElem?_layout h).2, Option.some_inj] at hb
    rw [← payload_layout h] at hc
    rw [ofBytes?_of_le h, Event.decode, hk, returnValue, hb,
      ReturnValue.ofRaw_of_not_isValidChar hc]
    rfl

theorem legible_of_ofBytes? (h : ofBytes? bytes = .ok r) : Legible bytes ∧ r = layout bytes := by
  rcases legible_or_fault bytes with hl | ⟨x, hf⟩
  · rw [ofBytes?_of_legible hl] at h
    cases h
    exact ⟨hl, rfl⟩
  · rw [ofBytes?_of_fault hf] at h
    cases h

theorem fault_of_ofBytes? (h : ofBytes? bytes = .error x) : Fault bytes x := by
  rcases legible_or_fault bytes with hl | ⟨x', hf⟩
  · rw [ofBytes?_of_legible hl] at h
    cases h
  · rw [ofBytes?_of_fault hf] at h
    cases h
    exact hf

end Record

/-- An event with a value only where its kind allows one comes back from its record. -/
theorem Event.decode_encode_of_valued {e : Event} (h : e.ret.isSome → e.kind.isExit) :
    decode e.encode = .ok e := by
  rw [decode_encode]
  cases hk : e.kind.isExit with
  | true => rfl
  | false =>
    have hnone : e.ret = none := by
      by_contra hne
      rw [h (Option.isSome_iff_ne_none.mpr hne)] at hk
      cases hk
    rw [if_neg (by decide), ← hnone]

/-- Whether bytes are read depends on the first 24 of them, of which nothing is lost; and whatever an
event carries comes back from its bytes. -/
theorem records_are_read_exactly :
    (∀ bytes, (∃ r, Record.ofBytes? bytes = .ok r) ↔ Record.Legible bytes) ∧
    (∀ bytes x, Record.ofBytes? bytes = .error x ↔ Record.Fault bytes x) ∧
    (∀ bytes r, Record.ofBytes? bytes = .ok r → r.toBytes = bytes.take recordSize) ∧
    (∀ bytes rest, recordSize ≤ bytes.length →
      Record.ofBytes? (bytes ++ rest) = Record.ofBytes? bytes) ∧
    (∀ e : Event, (e.ret.isSome → e.kind.isExit) →
      Record.ofBytes? e.encode.toBytes = .ok e.encode ∧ Event.decode e.encode = .ok e) := by
  refine ⟨fun bytes => ⟨?_, fun h => ⟨_, Record.ofBytes?_of_legible h⟩⟩,
    fun bytes x => ⟨Record.fault_of_ofBytes?, Record.ofBytes?_of_fault⟩, ?_, ?_, ?_⟩
  · rintro ⟨r, hr⟩
    exact (Record.legible_of_ofBytes? hr).1
  · intro bytes r hr
    obtain ⟨h, rfl⟩ := Record.legible_of_ofBytes? hr
    exact Record.toBytes_layout h.long
  · intro bytes rest h
    rw [Record.ofBytes?_of_le h, Record.ofBytes?_of_le (by rw [List.length_append]; omega),
      Record.layout_append h]
  · intro e he
    have hdecode := Event.decode_encode_of_valued he
    refine ⟨?_, hdecode⟩
    have hread := Record.ofBytes?_toBytes_append e.encode []
    rwa [List.append_nil, hdecode] at hread

/-- The exit of a method that returned no number, with a sign and a payload; another byte follows. -/
theorem records_are_read_exactly_nan :
    let e : Event := ⟨.methodExit, ⟨0xffff⟩, ⟨3⟩, ⟨500⟩, some (.float ⟨0xfff8000000000001⟩)⟩
    Record.ofBytes? (e.encode.toBytes ++ [255]) = .ok e.encode ∧ Event.decode e.encode = .ok e := by
  intro e
  obtain ⟨-, -, -, htrailing, hevent⟩ := records_are_read_exactly
  obtain ⟨hread, hdecode⟩ := hevent e (by decide)
  exact ⟨by rw [htrailing _ _ (by decide), hread], hdecode⟩

/-! ### Records beyond the encoder -/

namespace Record
variable {r : Record} {e : Event}

/-- A record such as encoding writes. -/
structure Canonical (r : Record) : Prop where
  /-- Only exits carry a value. -/
  valued : r.payloadTag ≠ 0 → (Kind.ofCode? r.kind).any Kind.isExit
  /-- A truth value is 0 or 1. -/
  truth : r.payloadTag = 1 → r.payload ≤ 1
  bare : r.payloadTag = 0 → r.payload = 0

/-- What becomes of a record when it is decoded and encoded again. -/
def normalize (r : Record) : Record :=
  if (Kind.ofCode? r.kind).any Kind.isExit then
    { r with payload := ReturnValue.normalize r.payloadTag r.payload }
  else { r with payload := 0, payloadTag := 0 }

theorem encode_of_decode (h : Event.decode r = .ok e) : e.encode = r.normalize := by
  obtain ⟨hkind, hret, hmethod, hthread, htime⟩ := Event.decode_eq_ok_iff.mp h
  have hof : Kind.ofCode? r.kind = some e.kind := Kind.ofCode?_eq_some_iff.mpr hkind
  rw [normalize, Event.encode, hof, Option.any_some, hmethod, hthread, htime, ← hkind]
  cases e.kind.isExit with
  | true =>
    obtain ⟨htag, hpayload⟩ := ReturnValue.elim_of_ofRaw hret
    rw [if_pos rfl, if_pos rfl, htag, hpayload]
  | false => rfl

theorem normalize_eq_iff : r.normalize = r ↔ r.Canonical := by
  obtain ⟨time, payload, no, m, kind, tag⟩ := r
  unfold normalize
  cases hexit : (Kind.ofCode? kind).any Kind.isExit with
  | true =>
    simp only [↓reduceIte, mk.injEq, true_and, and_true, ReturnValue.normalize_eq_iff]
    constructor
    · rintro ⟨htruth, hbare⟩
      exact ⟨fun _ => hexit, htruth, hbare⟩
    · rintro ⟨-, htruth, hbare⟩
      exact ⟨htruth, hbare⟩
  | false =>
    simp only [Bool.false_eq_true, ↓reduceIte, mk.injEq, true_and]
    constructor
    · rintro ⟨rfl, rfl⟩
      exact ⟨fun h => absurd rfl h, fun _ => UInt64.zero_le, fun _ => rfl⟩
    · rintro ⟨hvalued, -, hbare⟩
      have htag : tag = 0 := by
        by_contra hne
        have hvalue : (Kind.ofCode? kind).any Kind.isExit = true := hvalued hne
        rw [hexit] at hvalue
        cases hvalue
      exact ⟨(hbare htag).symm, htag.symm⟩

end Record

/-- A record decodes if and only if its bytes are read. Encoding normalizes what has been decoded, so
the records that come back are the canonical ones, and no others are ever written. -/
theorem decoded_records_encode_normalized (r : Record) :
    ((∃ e, Event.decode r = .ok e) ↔ Record.ofBytes? r.toBytes = .ok r) ∧
    (∀ e, Event.decode r = .ok e → e.encode = r.normalize ∧ (e.encode = r ↔ r.Canonical)) ∧
    ((∃ e : Event, e.encode = r) ↔ (∃ e, Event.decode r = .ok e) ∧ r.Canonical) := by
  have hencode (e : Event) (h : Event.decode r = .ok e) : e.encode = r ↔ r.Canonical := by
    rw [Record.encode_of_decode h, Record.normalize_eq_iff]
  refine ⟨?_, fun e h => ⟨Record.encode_of_decode h, hencode e h⟩, ?_⟩
  · have hread := Record.ofBytes?_toBytes_append r []
    rw [List.append_nil] at hread
    rw [hread]
    rcases Event.decode r with x | e
    · exact iff_of_false (by rintro ⟨e, he⟩; cases he) (by rintro ⟨⟩)
    · exact iff_of_true ⟨e, rfl⟩ rfl
  · constructor
    · rintro ⟨e, rfl⟩
      have hdecode := Event.decode_encode e
      refine ⟨⟨_, hdecode⟩, (hencode _ hdecode).mp ?_⟩
      cases hk : e.kind.isExit <;> simp [Event.encode, hk]
    · rintro ⟨⟨e, he⟩, hcanonical⟩
      exact ⟨e, (hencode e he).mpr hcanonical⟩

/-- A truth value of a root's exit comes back. -/
theorem decoded_records_encode_normalized_bool :
    let r : Record := ⟨500, 1, 2, 9, Kind.rootExit.code, 1⟩
    ∃ e, Event.decode r = .ok e ∧ e.ret = some (.bool true) ∧ e.encode = r := by
  intro r
  obtain ⟨-, hencode, -⟩ := decoded_records_encode_normalized r
  exact ⟨_, rfl, rfl, (hencode _ rfl).2.mpr ⟨by decide, by decide, by decide⟩⟩

/-- The value of an entry, a truth value of 2 and a payload that is no value decode, though no event
is written so. -/
theorem records_beyond_the_encoder :
    (let r : Record := ⟨0, 7, 1, 1, Kind.methodEntry.code, 3⟩
      ∃ e, Event.decode r = .ok e ∧ e.ret = some (.int 7) ∧ e.encode ≠ r) ∧
    (let r : Record := ⟨0, 2, 1, 1, Kind.methodExit.code, 1⟩
      ∃ e, Event.decode r = .ok e ∧ e.ret = some (.bool true) ∧ e.encode ≠ r) ∧
    (let r : Record := ⟨0, 7, 1, 1, Kind.methodExit.code, 0⟩
      ∃ e, Event.decode r = .ok e ∧ e.ret = none ∧ e.encode ≠ r) :=
  ⟨⟨_, rfl, rfl, by decide⟩, ⟨_, rfl, rfl, by decide⟩, ⟨_, rfl, rfl, by decide⟩⟩

end MethodTrace
