import StellarDb.Edges.Cascade

/-!
# StellarDb — when edge keys decode to the edge they encode

The parts of an edge key are joined by zero bytes and taken apart at every zero byte. A document
id may hold one: the collection name cannot, but `validate_document_id` only asks that the key is
not empty and has no colon. The keys of a set of edges parse back, stay apart and lie in the
ranges of their own nodes exactly if no part of them that ends up between separators has a zero
byte (`edgeKeys_exact_iff`).
-/

namespace StellarDb

open Keyspaces

/-! ## Document ids -/

/-- `ExecuteError::InvalidId` -/
structure InvalidId where
  message : String
  deriving DecidableEq, Repr

/-- Keys must be non-empty and free of colons. -/
def validateDocumentId (key : String) : Except InvalidId Unit :=
  if key.isEmpty then
    .error ⟨"document ID cannot be empty. Example: CREATE user:alice SET name = 'Alice'"⟩
  else if ':' ∈ key.toList then
    .error ⟨"document ID '" ++ key ++
      "' cannot contain ':' (the full format is collection:key, e.g., user:alice)"⟩
  else .ok ()

/-- A full document id whose collection name and key are accepted. -/
def IsDocumentId (id : String) : Prop :=
  ∃ collection key, validateName "collection" collection = .ok () ∧
    validateDocumentId key = .ok () ∧ id = collection ++ ":" ++ key

theorem colon_notMem_of_validateDocumentId {key : String} (h : validateDocumentId key = .ok ()) :
    ':' ∉ key.toList := by
  unfold validateDocumentId at h
  split at h
  · cases h
  · split at h
    · cases h
    · next hcolon => exact hcolon

theorem nul_notMem_of_validateName {kind name : String} (h : validateName kind name = .ok ()) :
    '\x00' ∉ name.toList := by
  intro hnul
  simp only [validateName, if_pos hnul] at h
  -- every branch up to the check is an error too
  by_cases hempty : name.toList.isEmpty = true
  · rw [if_pos hempty] at h
    cases h
  rw [if_neg hempty] at h
  by_cases hpath : ('/' ∈ name.toList || '\\' ∈ name.toList || hasDotDot name.toList) = true
  · rw [if_pos hpath] at h
    cases h
  rw [if_neg hpath] at h
  by_cases hdot : name = "."
  · rw [if_pos hdot] at h
    cases h
  · rw [if_neg hdot] at h
    cases h

/-! ## Zero bytes and zero characters -/

theorem zero_mem_utf8EncodeChar (c : Char) :
    (0 : UInt8) ∈ String.utf8EncodeChar c ↔ c = '\x00' := by
  constructor
  · intro hmem
    have hval : c.val.toNat = 0 := by
      have hne : ∀ n : Nat, 0 < n → n < 256 → (0 : UInt8) ≠ UInt8.ofNat n := by
        intro n hpos hlt heq
        have hnat : (0 : UInt8).toNat = (UInt8.ofNat n).toNat := congrArg UInt8.toNat heq
        have hmod : (UInt8.ofNat n).toNat = n % 256 := UInt8.toNat_ofNat'
        have hzero : (0 : UInt8).toNat = 0 := rfl
        omega
      unfold String.utf8EncodeChar at hmem
      simp only at hmem
      split at hmem
      · simp only [List.mem_cons, List.not_mem_nil, or_false] at hmem
        by_contra hpos
        exact hne _ (by omega) (by omega) hmem
      -- lead and continuation bytes have their top bit set
      · split at hmem
        · simp only [List.mem_cons, List.not_mem_nil, or_false] at hmem
          rcases hmem with h | h <;> exact absurd h (hne _ (by omega) (by omega))
        · split at hmem
          · simp only [List.mem_cons, List.not_mem_nil, or_false] at hmem
            rcases hmem with h | h | h <;> exact absurd h (hne _ (by omega) (by omega))
          · simp only [List.mem_cons, List.not_mem_nil, or_false] at hmem
            rcases hmem with h | h | h | h <;> exact absurd h (hne _ (by omega) (by omega))
    exact Char.ext (UInt32.toNat_inj.mp hval)
  · rintro rfl
    decide

theorem nulFree_iff {s : String} : NulFree s ↔ '\x00' ∉ s.toList := by
  unfold NulFree
  rw [utf8_eq_flatMap, List.mem_flatMap, not_iff_not]
  constructor
  · rintro ⟨c, hc, hzero⟩
    rw [zero_mem_utf8EncodeChar] at hzero
    exact hzero ▸ hc
  · intro hc
    exact ⟨_, hc, (zero_mem_utf8EncodeChar _).mpr rfl⟩

/-- A string with a zero character, cut at the first. -/
theorem exists_cut {s : String} (h : ¬ NulFree s) :
    ∃ head tail : String, s = head ++ "\x00" ++ tail ∧ NulFree head ∧
      utf8 s = utf8 head ++ 0 :: utf8 tail := by
  rw [nulFree_iff, not_not] at h
  obtain ⟨front, rest, hs, hfront⟩ := List.eq_append_cons_of_mem h
  refine ⟨String.ofList front, String.ofList rest, ?_, ?_, ?_⟩
  · rw [← String.toList_inj, hs]
    simp
  · rw [nulFree_iff]
    simpa using hfront
  · rw [utf8_eq_flatMap, hs, utf8_eq_flatMap, utf8_eq_flatMap]
    simp [String.utf8EncodeChar]

/-- The first part of a string that is split at zero bytes, whatever comes behind. -/
theorem first_part (s : String) {rest : Bytes} (hrest : rest = [] ∨ ∃ more, rest = 0 :: more) :
    ∃ part more, (utf8 s ++ rest).splitOn 0 = utf8 part :: more ∧
      (∀ c ∈ part.toList, c ∈ s.toList) ∧ (part = s → NulFree s) := by
  by_cases hs : NulFree s
  · rcases hrest with rfl | ⟨more, rfl⟩
    · refine ⟨s, [], ?_, fun _ hc => hc, fun _ => hs⟩
      rw [List.append_nil, List.splitOn_eq_singleton hs]
    · exact ⟨s, _, splitOn_zero_append hs more, fun _ hc => hc, fun _ => hs⟩
  · obtain ⟨head, tail, rfl, hhead, hbytes⟩ := exists_cut hs
    refine ⟨head, (utf8 tail ++ rest).splitOn 0, ?_, ?_, ?_⟩
    · rw [hbytes, List.append_assoc, List.cons_append]
      exact splitOn_zero_append hhead _
    · intro c hc
      simp [hc]
    · intro heq
      rw [← heq]
      exact hhead

section Ids

variable {id : String}

theorem IsDocumentId.colon_mem (h : IsDocumentId id) : ':' ∈ id.toList := by
  obtain ⟨collection, key, -, -, rfl⟩ := h
  simp

/-- A zero character stands in the key, behind the only colon that may follow it. -/
theorem IsDocumentId.colon_notMem_tail (h : IsDocumentId id) {head tail : String}
    (hid : id = head ++ "\x00" ++ tail) : ':' ∉ tail.toList := by
  obtain ⟨collection, key, hcollection, hkey, rfl⟩ := h
  have hcolon := colon_notMem_of_validateDocumentId hkey
  have hnul := nul_notMem_of_validateName hcollection
  have hlist : collection.toList ++ ':' :: key.toList = head.toList ++ '\x00' :: tail.toList := by
    have heq := congrArg String.toList hid
    simpa using heq
  intro htail
  rcases List.append_eq_append_iff.mp hlist with ⟨front, -, hfront⟩ | ⟨back, hback, hrest⟩
  · cases front with
    | nil => exact absurd (List.cons.inj hfront).1 (by decide)
    | cons c front =>
      -- the tail is a part of the key
      have hkeys : key.toList = front ++ '\x00' :: tail.toList := (List.cons.inj hfront).2
      rw [hkeys] at hcolon
      exact hcolon (List.mem_append_right _ (List.mem_cons_of_mem _ htail))
  · cases back with
    | nil => exact absurd (List.cons.inj hrest).1 (by decide)
    | cons c back =>
      -- the collection name has no zero character
      rw [hback, (List.cons.inj hrest).1] at hnul
      exact hnul (List.mem_append_right _ List.mem_cons_self)

end Ids

/-! ## What parsing needs -/

section Parsing

variable (schema : EdgeSchema)

/-- The part of a link key behind its second node. -/
def keyRest (edgeId : String) : Bytes :=
  match schema.cardinality with
  | .single => []
  | .multiple => 0 :: utf8 edgeId

theorem keyRest_cut (i : String) : keyRest schema i = [] ∨ ∃ more, keyRest schema i = 0 :: more := by
  unfold keyRest
  cases schema.cardinality with
  | single => exact Or.inl rfl
  | multiple => exact Or.inr ⟨_, rfl⟩

theorem drop_outKey (src dst i : String) :
    (outKey schema src dst i).drop 1 = utf8 src ++ 0 :: (utf8 dst ++ keyRest schema i) := by
  unfold outKey keyRest
  cases schema.cardinality with
  | single => simp [encodeEdgeOutKeySingle]
  | multiple => simp [encodeEdgeOutKeyMulti]

theorem drop_inKey (dst src i : String) :
    (inKey schema dst src i).drop 1 = utf8 dst ++ 0 :: (utf8 src ++ keyRest schema i) := by
  unfold inKey keyRest
  cases schema.cardinality with
  | single => simp [encodeEdgeInKeySingle]
  | multiple => simp [encodeEdgeInKeyMulti]

/-- An OUT key gives its target back only if neither node has a zero byte. -/
theorem nulFree_of_parseOutKeyTarget {src dst i : String} (hsrc : IsDocumentId src)
    (hdst : IsDocumentId dst)
    (h : EdgeStore.parseOutKeyTarget ((outKey schema src dst i).drop 1) = .ok dst) :
    NulFree src ∧ NulFree dst := by
  rw [drop_outKey] at h
  by_cases hs : NulFree src
  · obtain ⟨part, more, hsplit, -, hpart⟩ := first_part dst (keyRest_cut schema i)
    rw [EdgeStore.parseOutKeyTarget, splitOn_zero_append hs, hsplit] at h
    rw [Except.ok.injEq, fromUtf8Lossy_utf8] at h
    exact ⟨hs, hpart h⟩
  · -- what is read as the target comes from the key of the source, where no colon is
    obtain ⟨head, tail, hid, hhead, hbytes⟩ := exists_cut hs
    obtain ⟨part, more, hsplit, hchars, -⟩ := first_part tail
      (Or.inr ⟨utf8 dst ++ keyRest schema i, rfl⟩)
    rw [EdgeStore.parseOutKeyTarget, hbytes, List.append_assoc, List.cons_append,
      splitOn_zero_append hhead, hsplit, Except.ok.injEq, fromUtf8Lossy_utf8] at h
    exact absurd (hchars _ (h ▸ hdst.colon_mem)) (hsrc.colon_notMem_tail hid)

/-- The edge id in an IN key of a `Multiple` type must not have a zero byte either. -/
theorem nulFree_of_parseInKeyAndValue {src dst i : String} (hm : schema.cardinality = .multiple)
    (hsrc : NulFree src) (hdst : NulFree dst)
    (h : EdgeStore.parseInKeyAndValue schema ((inKey schema dst src i).drop 1) (inValue schema i) =
      .ok (src, i)) : NulFree i := by
  obtain ⟨part, more, hsplit, -, hpart⟩ := first_part i (Or.inl rfl)
  rw [List.append_nil] at hsplit
  rw [drop_inKey, keyRest, hm] at h
  simp only [EdgeStore.parseInKeyAndValue, splitOn_zero_append hdst, splitOn_zero_append hsrc,
    hsplit, hm, Except.ok.injEq, Prod.mk.injEq, fromUtf8Lossy_utf8, true_and] at h
  exact hpart h

theorem parseInKeyAndValue_of_nulFree {src dst i : String} (hsrc : NulFree src)
    (hdst : NulFree dst) (hi : schema.cardinality = .multiple → NulFree i) :
    EdgeStore.parseInKeyAndValue schema ((inKey schema dst src i).drop 1) (inValue schema i) =
      .ok (src, i) := by
  cases hc : schema.cardinality with
  | single =>
    rw [drop_inKey]
    simp only [EdgeStore.parseInKeyAndValue, keyRest, inValue, hc, List.append_nil,
      splitOn_zero_append hdst, List.splitOn_eq_singleton hsrc, fromUtf8Lossy_utf8]
  | multiple => exact parseInKeyAndValue_inKey hsrc hdst (hi hc)

/-- A key that begins with a node and a separator begins with its own node. -/
theorem node_eq_of_front {node a b i : String} {rest : Bytes} (hnode : IsDocumentId node)
    (hb : IsDocumentId b) (ha : NulFree a) (hbnul : NulFree b)
    (h : utf8 node ++ 0 :: rest = utf8 a ++ 0 :: (utf8 b ++ keyRest schema i)) : a = node := by
  by_cases hn : NulFree node
  · exact (utf8_inj.mp ((append_zero_inj hn ha).mp h).1).symm
  · -- the second node of the key would be a part of this one, and has a colon
    obtain ⟨head, tail, hid, hhead, hbytes⟩ := exists_cut hn
    rw [hbytes, List.append_assoc, List.cons_append, append_zero_inj hhead ha] at h
    obtain ⟨part, more, hsplit, hchars, -⟩ := first_part tail (Or.inr ⟨rest, rfl⟩)
    obtain ⟨part', more', hsplit', -, -⟩ := first_part b (keyRest_cut schema i)
    have hpart : part = b := by
      have hbsplit : ∃ more, (utf8 b ++ keyRest schema i).splitOn 0 = utf8 b :: more := by
        rcases keyRest_cut schema i with hr | ⟨r, hr⟩
        · exact ⟨[], by rw [hr, List.append_nil, List.splitOn_eq_singleton hbnul]⟩
        · exact ⟨_, by rw [hr, splitOn_zero_append hbnul]⟩
      obtain ⟨more'', hbsplit⟩ := hbsplit
      rw [h.2, hbsplit] at hsplit
      exact (utf8_inj.mp (List.cons.inj hsplit).1).symm
    exact absurd (hchars _ (hpart ▸ hb.colon_mem)) (hnode.colon_notMem_tail hid)

end Parsing

/-! ## Exactness -/

/-- Two edges that a type stores side by side. -/
def SideBySide (schema : EdgeSchema) (x y : IdEntry) : Prop :=
  x.id ≠ y.id ∧ (schema.cardinality = .single →
    normalize schema x.src x.dst ≠ normalize schema y.src y.dst)

/-- The keys of the edges parse back, stay apart, and lie in the ranges of their nodes only. -/
structure KeysExact (schema : EdgeSchema) (X : Set IdEntry) : Prop where
  out : ∀ x ∈ X, EdgeStore.parseOutKeyTarget ((outKey schema x.src x.dst x.id).drop 1) = .ok x.dst
  inn : ∀ x ∈ X, EdgeStore.parseInKeyAndValue schema ((inKey schema x.dst x.src x.id).drop 1)
    (inValue schema x.id) = .ok (x.src, x.id)
  id : ∀ x ∈ X, decodeEdgeIdValue (encodeEdgeIdValue x.src x.dst) = some (x.src, x.dst)
  apart : ∀ x ∈ X, ∀ y ∈ X, SideBySide schema x y →
    ∀ k ∈ encodeEdgeIdKey x.id :: slotKeys schema x,
      k ∉ encodeEdgeIdKey y.id :: slotKeys schema y
  outRange : ∀ x ∈ X, ∀ node, IsDocumentId node →
    inRange (encodeEdgeOutPrefix node) (encodeEdgeOutPrefixEnd node)
      (outKey schema x.src x.dst x.id) = true → x.src = node
  inRange : ∀ x ∈ X, ∀ node, IsDocumentId node →
    inRange (encodeEdgeInPrefix node) (encodeEdgeInPrefixEnd node)
      (inKey schema x.dst x.src x.id) = true → x.dst = node

section Exactness

variable {schema : EdgeSchema} {X : Set IdEntry}

theorem normalize_eq_or (schema : EdgeSchema) (a b : String) :
    normalize schema a b = (a, b) ∨ normalize schema a b = (b, a) := by
  unfold normalize
  split
  · exact Or.inr rfl
  · exact Or.inl rfl

theorem normalize_comm (hund : schema.isUndirected = true) (a b : String) :
    normalize schema a b = normalize schema b a := by
  have hn : normalize schema (normalize schema a b).1 (normalize schema a b).2 =
      normalize schema a b := normalize_normalize a b
  rcases normalize_eq_or schema a b with h | h
  · rw [h, normalize_swap hund h]
  · rw [h] at hn ⊢
    exact hn.symm

/-- Edges that share a link key have the same ends, and under `Multiple` the same id. -/
theorem slot_eq_of_key {x y : IdEntry} (hxs : NulFree x.src) (hxd : NulFree x.dst)
    (hys : NulFree y.src) (hyd : NulFree y.dst) {k : Bytes} (hx : k ∈ slotKeys schema x)
    (hy : k ∈ slotKeys schema y) :
    normalize schema x.src x.dst = normalize schema y.src y.dst ∧
      (schema.cardinality = .multiple → x.id = y.id) := by
  have hcross : ∀ a b i a' b' i', outKey schema a b i ≠ inKey schema a' b' i' := by
    intro a b i a' b' i' heq
    have hhead := congrArg List.head? heq
    rw [outKey_head, inKey_head] at hhead
    exact absurd hhead (by decide)
  simp only [slotKeys, List.mem_cons, List.not_mem_nil, or_false] at hx hy
  by_cases hund : schema.isUndirected = true
  · simp only [reverseKey, if_pos hund] at hx hy
    rcases hx with rfl | rfl <;> rcases hy with h | h
    · obtain ⟨h1, h2, h3⟩ := (outKey_inj schema hxs hys hxd hyd).mp h
      exact ⟨by rw [h1, h2], h3⟩
    · obtain ⟨h1, h2, h3⟩ := (outKey_inj schema hxs hyd hxd hys).mp h
      exact ⟨by rw [h1, h2, normalize_comm hund], h3⟩
    · obtain ⟨h1, h2, h3⟩ := (outKey_inj schema hxd hys hxs hyd).mp h
      exact ⟨by rw [h1, h2, normalize_comm hund], h3⟩
    · obtain ⟨h1, h2, h3⟩ := (outKey_inj schema hxd hyd hxs hys).mp h
      exact ⟨by rw [h1, h2], h3⟩
  · simp only [reverseKey, if_neg hund] at hx hy
    rcases hx with rfl | rfl <;> rcases hy with h | h
    · obtain ⟨h1, h2, h3⟩ := (outKey_inj schema hxs hys hxd hyd).mp h
      exact ⟨by rw [h1, h2], h3⟩
    · exact (hcross _ _ _ _ _ _ h).elim
    · exact (hcross _ _ _ _ _ _ h.symm).elim
    · obtain ⟨h1, h2, h3⟩ := (inKey_inj schema hxd hyd hxs hys).mp h
      exact ⟨by rw [h1, h2], h3⟩

/-- The bytes between the family of a key and what its node is followed by. -/
theorem front_of_range {family : UInt8} {node : String} {key : Bytes}
    (h : (family :: utf8 node ++ [0]) <+: key) : ∃ rest, key.drop 1 = utf8 node ++ 0 :: rest := by
  obtain ⟨rest, rfl⟩ := h
  exact ⟨rest, by simp⟩

/-- The keys of edges between document ids are exact if and only if no node, and under `Multiple`
no edge id, has a zero byte. -/
theorem edgeKeys_exact_iff (hX : ∀ x ∈ X, IsDocumentId x.src ∧ IsDocumentId x.dst) :
    KeysExact schema X ↔ ∀ x ∈ X, NulFree x.src ∧ NulFree x.dst ∧
      (schema.cardinality = .multiple → NulFree x.id) := by
  constructor
  · intro h x hx
    obtain ⟨hsrc, hdst⟩ := hX x hx
    obtain ⟨hs, hd⟩ := nulFree_of_parseOutKeyTarget schema hsrc hdst (h.out x hx)
    exact ⟨hs, hd, fun hm => nulFree_of_parseInKeyAndValue schema hm hs hd (h.inn x hx)⟩
  · intro h
    refine ⟨?_, ?_, ?_, ?_, ?_, ?_⟩
    · intro x hx
      exact parseOutKeyTarget_outKey (h x hx).1 (h x hx).2.1
    · intro x hx
      exact parseInKeyAndValue_of_nulFree schema (h x hx).1 (h x hx).2.1 (h x hx).2.2
    · intro x hx
      exact decodeEdgeIdValue_encode (h x hx).1 x.dst
    · intro x hx y hy hxy k hkx hky
      obtain ⟨hxs, hxd, -⟩ := h x hx
      obtain ⟨hys, hyd, -⟩ := h y hy
      rcases List.mem_cons.mp hkx with rfl | hkx <;> rcases List.mem_cons.mp hky with hky | hky
      · exact hxy.1 (encodeEdgeIdKey_inj.mp hky)
      · exact idKey_ne_of_isLinkKey (isLinkKey_of_mem_slotKeys hky) _ rfl
      · exact idKey_ne_of_isLinkKey (isLinkKey_of_mem_slotKeys hkx) _ hky.symm
      · obtain ⟨hpair, hid⟩ := slot_eq_of_key hxs hxd hys hyd hkx hky
        cases hc : schema.cardinality with
        | single => exact hxy.2 hc hpair
        | multiple => exact hxy.1 (hid hc)
    · intro x hx node hnode hin
      obtain ⟨rest, hrest⟩ := front_of_range ((inRange_sep_iff (edgePrefixOut :: utf8 node) _).mp hin)
      rw [drop_outKey] at hrest
      exact node_eq_of_front schema hnode (hX x hx).2 (h x hx).1 (h x hx).2.1 hrest.symm
    · intro x hx node hnode hin
      obtain ⟨rest, hrest⟩ := front_of_range ((inRange_sep_iff (edgePrefixIn :: utf8 node) _).mp hin)
      rw [drop_inKey] at hrest
      exact node_eq_of_front schema hnode (hX x hx).1 (h x hx).2.1 (h x hx).1 hrest.symm

end Exactness

/-! ## A document id with a zero character -/

namespace Zeros

theorem isDocumentId (key : String) (hkey : validateDocumentId key = .ok ()) :
    IsDocumentId ("users" ++ ":" ++ key) := ⟨"users", key, by decide, hkey, rfl⟩

/-- An edge between accepted ids, one of which has a zero character in its key. -/
def hidden : IdEntry := ⟨"e1", "users:a\x00b", "users:c"⟩

def plain : IdEntry := ⟨"e2", "users:a", "users:c"⟩

theorem plain_exact : KeysExact (.new "follows") {plain} ↔ ∀ x ∈ ({plain} : Set IdEntry),
    NulFree x.src ∧ NulFree x.dst ∧
      ((EdgeSchema.new "follows").cardinality = .multiple → NulFree x.id) := by
  refine edgeKeys_exact_iff ?_
  rintro x rfl
  exact ⟨isDocumentId "a" (by decide), isDocumentId "c" (by decide)⟩

/-- The key of the edge is read back with another target, and lies in the range of another
node. -/
theorem hidden_not_exact : IsDocumentId hidden.src ∧ IsDocumentId hidden.dst ∧
    EdgeStore.parseOutKeyTarget
      ((outKey (.new "follows") hidden.src hidden.dst hidden.id).drop 1) = .ok "b" ∧
    inRange (encodeEdgeOutPrefix "users:a") (encodeEdgeOutPrefixEnd "users:a")
      (outKey (.new "follows") hidden.src hidden.dst hidden.id) = true ∧
    ¬ KeysExact (.new "follows") {hidden} := by
  have hparse : EdgeStore.parseOutKeyTarget
      ((outKey (.new "follows") hidden.src hidden.dst hidden.id).drop 1) = .ok "b" := by
    decide +kernel
  refine ⟨isDocumentId "a\x00b" (by decide), isDocumentId "c" (by decide), hparse,
    by decide +kernel, fun h => ?_⟩
  have hout := h.out hidden rfl
  rw [hparse] at hout
  exact absurd (Except.ok.inj hout) (by decide)

end Zeros

end StellarDb
