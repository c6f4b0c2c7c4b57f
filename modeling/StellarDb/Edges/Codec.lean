import StellarDb.Edges.Keys
import StellarDb.Lib.MayPanic

/-!
# StellarDb — edge data as bytes

`serialize_edge_data` and `deserialize_edge_data` down to the bytes, with `rkyv` for the full
format. The store's model (`EdgeEntry`) keeps the full format as the data itself;
`deserializeEdgeBytes_image` says that it reads what the bytes say.

The compact format is taken apart by hand: `rest[sep + 1..sep + 9]` is cut before anything looks
at the length, and a stamp that is cut short is a panic, not an error (`panics_iff`).
-/

namespace StellarDb

open Keyspaces

/-- `rkyv::to_bytes` and the checking `rkyv::from_bytes` at `EdgeData`, with the error texts. -/
class EdgeArchive where
  toBytes : EdgeData → Except String Bytes
  fromBytes : Bytes → Except String EdgeData

/-- What is written is read back. -/
def EdgeArchive.Faithful [EdgeArchive] : Prop :=
  ∀ (data : EdgeData) (body : Bytes), toBytes data = .ok body → fromBytes body = .ok data

section Codec

variable [EdgeArchive]

/-- `serialize_edge_data` -/
def serializeEdgeBytes (data : EdgeData) : Except StorageError Bytes :=
  if data.isCompact then
    .ok (edgeFormatCompact :: utf8 data.id ++ 0x00 :: leBytes 8 data.createdAt.toNat)
  else
    match EdgeArchive.toBytes data with
    | .ok body => .ok (edgeFormatFull :: body)
    | .error e => .error (.serialization e)

/-- `deserialize_edge_data` -/
def deserializeEdgeBytes : Bytes → MayPanic StorageError EdgeData
  | [] => throw (.serialization "Empty edge data")
  | marker :: rest =>
    if marker = edgeFormatCompact then
      match rest.findIdx? (· = 0x00) with
      | none => throw (.serialization "Invalid compact format")
      | some sep => do
        let id := fromUtf8Lossy (rest.take sep)
        let timestamp ← MayPanic.slice rest (sep + 1) (sep + 9)
        if timestamp.length = 8 then pure ⟨id, BitVec.ofNat 64 (ofLeBytes timestamp), 0, []⟩
        else throw (.serialization "Invalid timestamp")
    else if marker = edgeFormatFull then
      match EdgeArchive.fromBytes rest with
      | .ok data => pure data
      | .error e => throw (.serialization e)
    else throw (.serialization ("Unknown edge format marker: " ++ toString marker.toNat))

/-! ## The compact format -/

/-- A compact record whose stamp is cut short. -/
def CutShort (bytes : Bytes) : Prop :=
  ∃ id stamp : Bytes, bytes = edgeFormatCompact :: id ++ 0 :: stamp ∧ (0 : UInt8) ∉ id ∧
    stamp.length < 8

omit [EdgeArchive] in
theorem findIdx_zero {id : Bytes} (hid : (0 : UInt8) ∉ id) (stamp : Bytes) :
    (id ++ 0 :: stamp).findIdx? (· = 0) = some id.length := by
  induction id with
  | nil => rfl
  | cons b id ih =>
    rw [List.mem_cons, not_or] at hid
    rw [List.cons_append, List.findIdx?_cons, decide_eq_false (Ne.symm hid.1), ih hid.2]
    rfl

theorem deserialize_unseparated {rest : Bytes} (hzero : (0 : UInt8) ∉ rest) :
    deserializeEdgeBytes (edgeFormatCompact :: rest) =
      throw (.serialization "Invalid compact format") := by
  have hnone : rest.findIdx? (· = 0) = none := by
    rw [List.findIdx?_eq_none_iff]
    intro b hb
    exact decide_eq_false fun h => hzero (h ▸ hb)
  rw [deserializeEdgeBytes, if_pos rfl, hnone]

/-- The record is taken apart at its first zero byte. -/
theorem deserialize_compact {id : Bytes} (hid : (0 : UInt8) ∉ id) (stamp : Bytes) :
    deserializeEdgeBytes (edgeFormatCompact :: (id ++ 0 :: stamp)) =
      if 8 ≤ stamp.length then
        pure ⟨fromUtf8Lossy id, BitVec.ofNat 64 (ofLeBytes (stamp.take 8)), 0, []⟩
      else MayPanic.abort := by
  have hlen : (id ++ 0 :: stamp).length = id.length + stamp.length + 1 := by simp; omega
  rw [deserializeEdgeBytes, if_pos rfl, findIdx_zero hid]
  dsimp only
  by_cases hstamp : 8 ≤ stamp.length
  · have hdrop : (id ++ 0 :: stamp).drop (id.length + 1) = stamp := by
      rw [← List.drop_drop, List.drop_left]
      rfl
    rw [if_pos hstamp, MayPanic.slice_of_le (by omega), pure_bind, hdrop,
      show id.length + 9 - (id.length + 1) = 8 by omega,
      if_pos (by rw [List.length_take]; omega), List.take_left]
  · rw [if_neg hstamp]
    unfold MayPanic.slice
    rw [if_neg (by omega)]
    rfl

theorem panics_iff (bytes : Bytes) :
    (deserializeEdgeBytes bytes).Panics ↔ CutShort bytes := by
  constructor
  · intro h
    cases bytes with
    | nil => exact absurd h (MayPanic.not_panics_throw _)
    | cons marker rest =>
      by_cases hmarker : marker = edgeFormatCompact
      · subst hmarker
        by_cases hzero : (0 : UInt8) ∈ rest
        · obtain ⟨id, stamp, rfl, hid⟩ := List.eq_append_cons_of_mem hzero
          refine ⟨id, stamp, rfl, hid, ?_⟩
          by_contra hstamp
          rw [deserialize_compact hid, if_pos (by omega)] at h
          exact MayPanic.not_panics_pure _ h
        · -- without a separator the format is refused
          rw [deserialize_unseparated hzero] at h
          exact absurd h (MayPanic.not_panics_throw _)
      · rw [deserializeEdgeBytes, if_neg hmarker] at h
        split at h
        · split at h
          · exact absurd h (MayPanic.not_panics_pure _)
          · exact absurd h (MayPanic.not_panics_throw _)
        · exact absurd h (MayPanic.not_panics_throw _)
  · intro ⟨id, stamp, hbytes, hid, hstamp⟩
    subst hbytes
    rw [List.cons_append, deserialize_compact hid, if_neg (by omega)]
    exact MayPanic.panics_abort

/-! ## Round trips -/

/-- An id without a zero byte comes back, whichever format was chosen. -/
theorem deserialize_serializeEdgeBytes (hfaithful : EdgeArchive.Faithful) {data : EdgeData}
    (hid : data.isCompact → NulFree data.id) {bytes : Bytes}
    (h : serializeEdgeBytes data = .ok bytes) : deserializeEdgeBytes bytes = pure data := by
  unfold serializeEdgeBytes at h
  split at h
  · next hcompact =>
    rw [← Except.ok.inj h, List.cons_append, deserialize_compact (hid hcompact),
      if_pos (by rw [leBytes_length])]
    -- the compact format drops what `is_compact` says is empty
    obtain ⟨id, createdAt, updatedAt, fields⟩ := data
    simp only [EdgeData.isCompact, Bool.and_eq_true, List.isEmpty_iff, decide_eq_true_eq]
      at hcompact
    obtain ⟨rfl, rfl⟩ := hcompact
    have htake : (leBytes 8 createdAt.toNat).take 8 = leBytes 8 createdAt.toNat :=
      List.take_of_length_le (le_of_eq (leBytes_length ..))
    have hstamp : BitVec.ofNat 64 (ofLeBytes (leBytes 8 createdAt.toNat)) = createdAt := by
      have hlt : createdAt.toNat < 256 ^ 8 := by simpa using createdAt.isLt
      rw [ofLeBytes_leBytes, Nat.mod_eq_of_lt hlt]
      simp
    rw [htake, hstamp, fromUtf8Lossy_utf8]
  · split at h
    · next body hbody =>
      rw [← Except.ok.inj h]
      rw [deserializeEdgeBytes, if_neg (by decide), if_pos rfl, hfaithful data body hbody]
    · cases h

/-- A compact record of an id with a zero byte is read with a shorter id. -/
theorem deserialize_cut {data : EdgeData} (hcompact : data.isCompact = true)
    (hid : ¬ NulFree data.id) {bytes : Bytes} (h : serializeEdgeBytes data = .ok bytes)
    {read : EdgeData} (hread : deserializeEdgeBytes bytes = pure read) : read.id ≠ data.id := by
  obtain ⟨head, tail, -, hhead, hutf8⟩ := exists_cut hid
  unfold serializeEdgeBytes at h
  rw [if_pos hcompact, hutf8] at h
  rw [← Except.ok.inj h, List.cons_append, List.append_assoc, List.cons_append,
    deserialize_compact hhead] at hread
  split at hread
  · have hdata := Except.ok.inj (Option.some.inj hread)
    rw [← hdata]
    show fromUtf8Lossy (utf8 head) ≠ data.id
    rw [fromUtf8Lossy_utf8]
    exact fun heq => hid (heq ▸ hhead)
  · cases hread

omit [EdgeArchive] in
/-- An edge comes back from its data if its id starts with its label and the stamp of its last
update is not the one that stands for none. -/
theorem toEdge_fromEdge (edge : Edge) :
    (EdgeData.fromEdge edge).toEdge edge.label edge.src edge.dst = edge ↔
      edge.id = edge.label ++ ":" ++ edge.nanoid ∧ edge.updatedAt ≠ some 0 := by
  obtain ⟨id, src, dst, label, createdAt, updatedAt, fields⟩ := edge
  have hstamp : (if updatedAt.getD 0 = 0 then none else some (updatedAt.getD 0)) = updatedAt ↔
      updatedAt ≠ some 0 := by
    cases updatedAt with
    | none => simp
    | some stamp =>
      rw [Option.getD_some]
      by_cases hzero : stamp = 0
      · rw [if_pos hzero, hzero]
        simp
      · rw [if_neg hzero]
        exact ⟨fun _ h => hzero (Option.some.inj h), fun _ => rfl⟩
  unfold EdgeData.fromEdge EdgeData.toEdge
  simp only [Edge.mk.injEq, true_and, and_true, hstamp]
  rw [eq_comm]

/-! ## The store's entries -/

end Codec

/-! ## The codec -/

/-- The edge comes back from its bytes. -/
def EdgeReturns [EdgeArchive] (edge : Edge) (bytes : Bytes) : Prop :=
  ∃ data, deserializeEdgeBytes bytes = pure data ∧
    data.toEdge edge.label edge.src edge.dst = edge

theorem edgeReturns_iff [EdgeArchive] (hfaithful : EdgeArchive.Faithful) {edge : Edge}
    {bytes : Bytes} (h : serializeEdgeBytes (EdgeData.fromEdge edge) = .ok bytes) :
    EdgeReturns edge bytes ↔ edge.id = edge.label ++ ":" ++ edge.nanoid ∧
      edge.updatedAt ≠ some 0 ∧
      ((EdgeData.fromEdge edge).isCompact = true → NulFree edge.nanoid) := by
  constructor
  · intro ⟨data, hdata, hedge⟩
    have hid : (EdgeData.fromEdge edge).isCompact = true → NulFree edge.nanoid := by
      intro hcompact
      by_contra hnul
      -- the id that is read is the id of the edge
      have hread : edge.nanoid = data.id := by rw [← hedge, nanoid_toEdge]
      exact deserialize_cut hcompact hnul h hdata hread.symm
    have hback := deserialize_serializeEdgeBytes hfaithful hid h
    rw [hdata] at hback
    rw [Except.ok.inj (Option.some.inj hback), toEdge_fromEdge] at hedge
    exact ⟨hedge.1, hedge.2, hid⟩
  · intro ⟨hlabel, hstamp, hid⟩
    exact ⟨_, deserialize_serializeEdgeBytes hfaithful hid h,
      (toEdge_fromEdge edge).mpr ⟨hlabel, hstamp⟩⟩

/-- Reading panics on the records whose stamp is cut short and on no others; data come back;
an edge does when it is what its data can say. -/
theorem edge_codec [EdgeArchive] (hfaithful : EdgeArchive.Faithful) :
    (∀ bytes : Bytes, ¬ (deserializeEdgeBytes bytes).Panics ↔ ¬ CutShort bytes) ∧
    (∀ data : EdgeData, NulFree data.id →
      (data.isCompact = true → ∃ bytes, serializeEdgeBytes data = .ok bytes) ∧
      ∀ bytes, serializeEdgeBytes data = .ok bytes → deserializeEdgeBytes bytes = pure data) ∧
    (∀ (edge : Edge) (bytes : Bytes),
      serializeEdgeBytes (EdgeData.fromEdge edge) = .ok bytes →
      (EdgeReturns edge bytes ↔ edge.id = edge.label ++ ":" ++ edge.nanoid ∧
        edge.updatedAt ≠ some 0 ∧
        ((EdgeData.fromEdge edge).isCompact = true → NulFree edge.nanoid))) := by
  refine ⟨fun bytes => not_congr (panics_iff bytes), fun data hid => ⟨fun hcompact => ?_, ?_⟩, ?_⟩
  · exact ⟨_, if_pos hcompact⟩
  · exact fun bytes h => deserialize_serializeEdgeBytes hfaithful (fun _ => hid) h
  · exact fun edge bytes h => edgeReturns_iff hfaithful h

namespace Ferry

/-- An archive for data without fields: the two stamps, then the id. -/
local instance archive : EdgeArchive where
  toBytes data :=
    if data.fields.isEmpty then
      .ok (leBytes 8 data.createdAt.toNat ++ leBytes 8 data.updatedAt.toNat ++ utf8 data.id)
    else .error "fields are not archived"
  fromBytes bytes :=
    match fromUtf8 (bytes.drop 16) with
    | some id => .ok ⟨id, BitVec.ofNat 64 (ofLeBytes (bytes.take 8)),
        BitVec.ofNat 64 (ofLeBytes ((bytes.drop 8).take 8)), []⟩
    | none => .error "invalid id"

theorem archive_faithful : EdgeArchive.Faithful := by
  intro data body h
  have hword : ∀ x : BitVec 64, BitVec.ofNat 64 (ofLeBytes (leBytes 8 x.toNat)) = x := by
    intro x
    have hlt : x.toNat < 256 ^ 8 := by simpa using x.isLt
    rw [ofLeBytes_leBytes, Nat.mod_eq_of_lt hlt]
    simp
  obtain ⟨id, createdAt, updatedAt, fields⟩ := data
  change (if fields.isEmpty then _ else _) = _ at h
  split at h
  · next hfields =>
    obtain rfl := List.isEmpty_iff.mp hfields
    rw [← Except.ok.inj h]
    have hc : (leBytes 8 createdAt.toNat).length = 8 := leBytes_length ..
    have hu : (leBytes 8 updatedAt.toNat).length = 8 := leBytes_length ..
    show (match fromUtf8 _ with | some id => _ | none => _) = _
    rw [List.drop_append_of_le_length (by simp [hc, hu]), List.drop_of_length_le (by simp [hc, hu]),
      List.nil_append, fromUtf8_utf8, List.append_assoc,
      List.take_left' hc, List.drop_left' hc, List.take_left' hu, hword, hword]
  · cases h

/-- A ticket that was never stamped again. -/
theorem ticket_returns :
    let edge : Edge := ⟨"ticket:a1", "port:a", "port:b", "ticket", 7, none, []⟩
    ∃ bytes, serializeEdgeBytes (EdgeData.fromEdge edge) = .ok bytes ∧
      ¬ (deserializeEdgeBytes bytes).Panics ∧ EdgeReturns edge bytes := by
  intro edge
  obtain ⟨hpanics, hdata, hedge⟩ := edge_codec archive_faithful
  have hnul : NulFree (EdgeData.fromEdge edge).id := by decide +kernel
  obtain ⟨bytes, hbytes⟩ := (hdata _ hnul).1 (by decide +kernel)
  have hreturns := (hedge edge bytes hbytes).mpr ⟨by decide +kernel, nofun, fun _ => hnul⟩
  refine ⟨bytes, hbytes, ?_, hreturns⟩
  rw [(hdata _ hnul).2 bytes hbytes]
  exact MayPanic.not_panics_pure _

/-- Three bytes are enough, and an update at the start of 1970 is one that never was. -/
theorem ticket_lost :
    ¬ (∀ bytes : Bytes, ¬ (deserializeEdgeBytes bytes).Panics) ∧
    ¬ (∀ (edge : Edge) (bytes : Bytes), NulFree edge.nanoid →
        edge.id = edge.label ++ ":" ++ edge.nanoid →
        serializeEdgeBytes (EdgeData.fromEdge edge) = .ok bytes → EdgeReturns edge bytes) := by
  constructor
  · intro h
    exact h [0, 0x61, 0] rfl
  · intro h
    have hreturns := h ⟨"ticket:a1", "port:a", "port:b", "ticket", 7, some 0, []⟩ _
      (by decide +kernel) (by decide +kernel) rfl
    exact ((edgeReturns_iff archive_faithful rfl).mp hreturns).2.1 rfl

end Ferry

end StellarDb
