import DeroGold.ParseExtra

/-!
The extra of a payment, read by the node and by the wallet.

The two readers were written apart. The node takes the length of a nonce from one byte where
the wallet writes a number of variable length; it knows a payment id only in a nonce that
holds nothing else; and it takes the nonce of the proof of work for tags, and may meet an error
among them. `extra_readAlike_iff` says for which payments they agree nevertheless.
-/

namespace DeroGold.Extra

open List Codec Varint

open TransactionExtraField (publicKey? nonce?)

/-! ### The fields the node finds -/

/-- Fields are added to those found before. -/
theorem prefix_parseFields (rounds : Nat) (seen : Seen) (fields : List TransactionExtraField)
    (bytes : Bytes) : fields <+: (parseFields rounds seen fields bytes).2 := by
  fun_induction parseFields rounds seen fields bytes with
  | case8 rounds seen fields bytes unseen key rest read tag ih =>
    exact (prefix_append _ _).trans ih
  | case11 rounds seen fields bytes unseen nonce rest read tag tag' ih =>
    exact (prefix_append _ _).trans ih
  | case13 rounds seen fields c bytes h h' h'' tag depth root rest read ih =>
    exact (prefix_append _ _).trans ih
  | case14 rounds seen fields c bytes h h' h'' tag ih => exact ih
  | _ => simp

section Fields

variable {bytes nonce rest : Bytes} {tagged : Bool} {key : Pod 32} {rounds : Nat} {seen : Seen}
  {fields : List TransactionExtraField}

theorem readNonce_eq_ok_iff : readNonce bytes = .ok (nonce, rest) ↔
      ∃ size : UInt8, nonce.length = size.toNat ∧ bytes = size :: (nonce ++ rest) := by
  constructor
  · intro found
    obtain ⟨size, mid, size_read, found⟩ := bind_eq_ok_iff.1 found
    obtain ⟨content, left, content_read, made⟩ := bind_eq_ok_iff.1 found
    obtain ⟨rfl, rfl⟩ := pure_eq_ok_iff.1 made
    obtain ⟨byte, one⟩ := length_eq_one_iff.1 size.property
    obtain rfl := take_eq_ok_iff.1 size_read
    obtain rfl := take_eq_ok_iff.1 content_read
    refine ⟨byte, ?_, ?_⟩
    · rw [content.property, one, headD_cons]
    · simp [one]
  · rintro ⟨size, length, rfl⟩
    refine bind_eq_ok_iff.2 ⟨⟨[size], rfl⟩, nonce ++ rest, take_eq_ok_iff.2 rfl, ?_⟩
    exact bind_eq_ok_iff.2
      ⟨⟨nonce, length⟩, rest, take_eq_ok_iff.2 rfl, pure_eq_ok_iff.2 ⟨rfl, rfl⟩⟩

/-- A merge mining tag takes its 32 bytes at least, and what follows is shorter. -/
theorem length_of_readMergeMiningTag {tag : Nat × Pod 32}
    (found : readMergeMiningTag bytes = .ok (tag, rest)) : rest.length + 33 ≤ bytes.length := by
  obtain ⟨field, mid, field_read, tag_read⟩ := bind_eq_ok_iff.1 found
  obtain ⟨size, behind, size_read, value_and_rest⟩ := bind_eq_ok_iff.1 field_read
  obtain ⟨value, left, value_read, made⟩ := bind_eq_ok_iff.1 value_and_rest
  obtain rfl := eq_encode_of_readVarint (by decide) size_read
  obtain rfl := take_eq_ok_iff.1 value_read
  -- the string is what was read, or it is empty
  have field_length : field.length ≤ value.val.length ∧ left = mid := by
    split_ifs at made
    · obtain ⟨rfl, same⟩ := pure_eq_ok_iff.1 made
      exact ⟨Nat.zero_le _, same⟩
    · obtain ⟨rfl, same⟩ := pure_eq_ok_iff.1 made
      exact ⟨le_rfl, same⟩
  cases inner_eq : (do
      let depth ← readVarint 64
      let merkleRoot ← readBinary 32
      return (depth, merkleRoot) : InputSerializer (Nat × Pod 32)) field with
  | error error =>
    rw [inner_eq] at tag_read
    exact absurd tag_read fail_ne_ok
  | ok result =>
    obtain ⟨inner_tag, inner_rest⟩ := result
    rw [inner_eq] at tag_read
    obtain ⟨-, rfl⟩ := pure_eq_ok_iff.1 tag_read
    obtain ⟨depth, inner_mid, depth_read, root_and_rest⟩ := bind_eq_ok_iff.1 inner_eq
    obtain ⟨root, inner_left, root_read, inner_made⟩ := bind_eq_ok_iff.1 root_and_rest
    obtain rfl := eq_encode_of_readVarint (by decide) depth_read
    obtain rfl := take_eq_ok_iff.1 root_read
    have some_size := length_pos_of_ne_nil (encode_ne_nil size)
    have some_depth := length_pos_of_ne_nil (encode_ne_nil depth)
    simp only [length_append, root.property, field_length.2] at field_length ⊢
    omega

/-! ### The first public key -/

/-- The first tag that is no merge mining tag is that of this key. A merge mining tag is passed
once as a field, and afterwards as a byte that is no tag. -/
inductive KeyFirst : Bool → Bytes → Pod 32 → Prop where
  | here {tagged : Bool} {key : Pod 32} {rest : Bytes} :
      KeyFirst tagged (tagPubkey :: (key.val ++ rest)) key
  | skip {tagged : Bool} {c : UInt8} {rest : Bytes} {key : Pod 32}
      (no_tag : c ≠ tagPadding ∧ c ≠ tagPubkey ∧ c ≠ tagNonce)
      (tagged_before : c = tagMergeMining → tagged = true) :
      KeyFirst tagged rest key → KeyFirst tagged (c :: rest) key
  | tag {bytes rest : Bytes} {tag : Nat × Pod 32} {key : Pod 32} :
      readMergeMiningTag bytes = .ok (tag, rest) → KeyFirst true rest key →
      KeyFirst false (tagMergeMining :: bytes) key

theorem keyFirst_pubkey_iff :
    KeyFirst tagged (tagPubkey :: bytes) key ↔ ∃ rest, bytes = key.val ++ rest := by
  constructor
  · intro first
    cases first with
    | here => exact ⟨_, rfl⟩
    | skip no_tag => exact absurd rfl no_tag.2.1
  · rintro ⟨rest, rfl⟩
    exact .here

theorem keyFirst_tag_iff : KeyFirst false (tagMergeMining :: bytes) key ↔
      ∃ tag rest, readMergeMiningTag bytes = .ok (tag, rest) ∧ KeyFirst true rest key := by
  constructor
  · intro first
    cases first with
    | skip no_tag tagged_before => exact absurd (tagged_before rfl) (by decide)
    | tag read first => exact ⟨_, _, read, first⟩
  · rintro ⟨tag, rest, read, first⟩
    exact .tag read first

theorem keyFirst_skip_iff {c : UInt8} (no_tag : c ≠ tagPadding ∧ c ≠ tagPubkey ∧ c ≠ tagNonce)
    (tagged_before : c = tagMergeMining → tagged = true) :
    KeyFirst tagged (c :: bytes) key ↔ KeyFirst tagged bytes key := by
  constructor
  · intro first
    cases first with
    | here => exact absurd rfl no_tag.2.1
    | skip _ _ first => exact first
    | tag => exact absurd (tagged_before rfl) (by decide)
  · exact .skip no_tag tagged_before

theorem not_keyFirst_padding : ¬KeyFirst tagged (tagPadding :: bytes) key := by
  intro first
  cases first with
  | skip no_tag => exact no_tag.1 rfl

theorem not_keyFirst_nonce : ¬KeyFirst tagged (tagNonce :: bytes) key := by
  intro first
  cases first with
  | skip no_tag => exact no_tag.2.2 rfl

theorem not_keyFirst_nil : ¬KeyFirst tagged [] key := by
  intro first
  cases first

/-- After its nonce, the node finds the key that is first. -/
theorem findSome_parseFields_iff (enough : bytes.length ≤ rounds) (nonce_seen : seen.nonce = true)
    (no_key : seen.pubkey = false) (none_found : fields.findSome? publicKey? = none) :
    (parseFields rounds seen fields bytes).2.findSome? publicKey? = some key ↔
      KeyFirst seen.mergeMiningTag bytes key := by
  fun_induction parseFields rounds seen fields bytes with
  | case1 seen fields bytes =>
    obtain rfl := length_eq_zero_iff.1 (Nat.le_zero.1 enough)
    simp [none_found, not_keyFirst_nil]
  | case2 => simp [none_found, not_keyFirst_nil]
  | case3 | case4 => simp [none_found, not_keyFirst_padding]
  | case5 => simp [none_found, not_keyFirst_padding, publicKey?]
  | case6 rounds seen fields bytes seen_key => simp [no_key] at seen_key
  | case7 rounds seen fields bytes no_key' error read tag =>
    simp only [none_found, keyFirst_pubkey_iff]
    constructor
    · intro found
      cases found
    · rintro ⟨rest, rfl⟩
      have ok : readBinary 32 (key.val ++ rest) = .ok (key, rest) := take_eq_ok_iff.2 rfl
      cases read.symm.trans ok
  | case8 rounds seen fields bytes no_key' found rest read tag ih =>
    have kept := IsPrefix.findSome?_eq_some (f := publicKey?) (b := found)
      (prefix_parseFields rounds { seen with pubkey := true } (fields ++ [.publicKey found]) rest)
      (by simp [none_found, publicKey?])
    obtain rfl := take_eq_ok_iff.1 read
    rw [kept, keyFirst_pubkey_iff]
    constructor
    · intro same
      cases same
      exact ⟨rest, rfl⟩
    · rintro ⟨rest', same⟩
      have := (append_inj same (by rw [found.property, key.property])).1
      rw [Subtype.ext this]
  | case9 => simp [none_found, not_keyFirst_nonce]
  | case10 _ _ _ _ unseen | case11 _ _ _ _ unseen => simp [nonce_seen] at unseen
  | case12 rounds seen fields c bytes h h' h'' tag error read =>
    obtain ⟨rfl, untagged⟩ := tag
    rw [untagged]
    simp [none_found, keyFirst_tag_iff, read]
  | case13 rounds seen fields c bytes h h' h'' tag depth root rest read ih =>
    obtain ⟨rfl, untagged⟩ := tag
    have shorter := length_of_readMergeMiningTag read
    rw [length_cons] at enough
    rw [ih (by omega) nonce_seen no_key (by simp [none_found, publicKey?]), untagged]
    simp [keyFirst_tag_iff, read]
  | case14 rounds seen fields c bytes h h' h'' tag ih =>
    have tagged_before : c = tagMergeMining → seen.mergeMiningTag = true := by
      intro same
      simpa [same] using tag
    rw [ih (by simpa using enough) nonce_seen no_key none_found,
      keyFirst_skip_iff ⟨h, h', h''⟩ tagged_before]

/-! ### Errors behind the key -/

/-- The node meets no error among a few bytes behind a nonce and a key: the first tag is one it
has met, or a padding up to the end. -/
def tagsPassed : Bytes → Bool
  | [] => true
  | c :: bytes =>
    if c = tagPadding then bytes.all (· == 0)
    else if c = tagPubkey ∨ c = tagNonce then true
    else if c = tagMergeMining then false
    else tagsPassed bytes

theorem paddingSize_isSome_iff {size : Nat} (few : size + bytes.length ≤ 255) :
    (paddingSize size bytes).isSome = true ↔ bytes.all (· == 0) = true := by
  induction bytes generalizing size with
  | nil =>
    have small : ¬txExtraPaddingMaxCount < size := by simpa [txExtraPaddingMaxCount] using few
    simp [paddingSize, small]
  | cons byte bytes ih =>
    rw [length_cons] at few
    have small : ¬txExtraPaddingMaxCount < size := by
      rw [txExtraPaddingMaxCount]
      omega
    by_cases zero : byte = 0
    · simpa [paddingSize, small, zero] using ih (by omega)
    · simp [paddingSize, small, zero]

theorem parseFields_ok_iff (enough : bytes.length ≤ rounds) (few : bytes.length < 33)
    (key_seen : seen.pubkey = true) (nonce_seen : seen.nonce = true)
    (no_padding : seen.padding = false) (no_tag : seen.mergeMiningTag = false) :
    (parseFields rounds seen fields bytes).1 = true ↔ tagsPassed bytes = true := by
  fun_induction parseFields rounds seen fields bytes with
  | case1 seen fields bytes =>
    obtain rfl := length_eq_zero_iff.1 (Nat.le_zero.1 enough)
    simp [tagsPassed]
  | case2 => simp [tagsPassed]
  | case3 rounds seen fields bytes padding => simp [no_padding] at padding
  | case4 rounds seen fields bytes padding read | case5 rounds seen fields bytes padding size read =>
    rw [length_cons] at few
    have zeros := paddingSize_isSome_iff (by omega : 1 + bytes.length ≤ 255)
    rw [read] at zeros
    simpa [tagsPassed] using zeros
  | case6 _ _ _ _ _ no_padding_tag | case9 _ _ _ _ _ no_padding_tag =>
    simp [tagsPassed, no_padding_tag]
  | case7 _ _ _ _ unseen | case8 _ _ _ _ unseen => simp [key_seen] at unseen
  | case10 _ _ _ _ unseen | case11 _ _ _ _ unseen => simp [nonce_seen] at unseen
  | case12 rounds seen fields c bytes h h' h'' tag =>
    obtain ⟨rfl, -⟩ := tag
    simp [tagsPassed, h, h', h'']
  | case13 rounds seen fields c bytes h h' h'' tag depth root rest read =>
    have long := length_of_readMergeMiningTag read
    rw [length_cons] at few
    omega
  | case14 rounds seen fields c bytes h h' h'' tag ih =>
    have no_merge : ¬c = tagMergeMining := fun same => tag ⟨same, no_tag⟩
    rw [length_cons] at few enough
    rw [ih (by omega) (by omega) key_seen nonce_seen no_padding no_tag]
    simp [tagsPassed, h, h', h'', no_merge]

/-- A nonce is shorter than the bytes it was found in. -/
theorem length_of_nonce_mem (mem : .nonce nonce ∈ (parseFields rounds seen fields bytes).2) :
    .nonce nonce ∈ fields ∨ nonce.length < bytes.length := by
  fun_induction parseFields rounds seen fields bytes with
  | case5 => exact .inl (by simpa using mem)
  | case8 rounds seen fields bytes unseen key rest read tag ih =>
    obtain rfl := take_eq_ok_iff.1 read
    refine (ih mem).imp (fun old => by simpa using old) (fun short => ?_)
    simp only [length_cons, length_append]
    omega
  | case11 rounds seen fields bytes unseen found rest read tag tag' ih =>
    obtain ⟨size, length, rfl⟩ := readNonce_eq_ok_iff.1 read
    simp only [length_cons, length_append]
    rcases ih mem with old | short
    · rcases mem_append.1 old with old | new
      · exact .inl old
      · obtain rfl : nonce = found := by simpa using new
        exact .inr (by omega)
    · exact .inr (by omega)
  | case13 rounds seen fields c bytes h h' h'' tag depth root rest read ih =>
    have shorter := length_of_readMergeMiningTag read
    refine (ih mem).imp (fun old => by simpa using old) (fun short => ?_)
    rw [length_cons]
    omega
  | case14 rounds seen fields c bytes h h' h'' tag ih =>
    exact (ih mem).imp_right (fun short => short.trans (Nat.lt_succ_self _))
  | _ => exact .inl mem

theorem nonce_mem_of_findSome (found : fields.findSome? nonce? = some nonce) :
    .nonce nonce ∈ fields := by
  obtain ⟨field, mem, is_nonce⟩ := exists_of_findSome?_eq_some found
  cases field with
  | nonce data =>
    cases is_nonce
    exact mem
  | _ => cases is_nonce

/-! ### The extra of a payment, as the node reads it -/

/-- The key of a payment and what is behind it. -/
theorem parseFields_keyFields {publicKey : Pod 32} {powNonce : Pod 8} (no_key : seen.pubkey = false)
    (rounds : Nat) (fields : List TransactionExtraField) :
    parseFields (rounds + 2) seen fields (keyFields publicKey powNonce) =
      parseFields rounds { seen with pubkey := true } (fields ++ [.publicKey publicKey])
        powNonce.val := by
  have read : readBinary 32 (publicKey.val ++ transactionPowNonceIdentifier :: powNonce.val) =
      .ok (publicKey, transactionPowNonceIdentifier :: powNonce.val) := take_eq_ok_iff.2 rfl
  rw [keyFields, parseFields, if_neg (by decide), if_pos rfl, if_neg (by simp [no_key]), read]
  change parseFields (rounds + 1) _ _ _ = _
  rw [parseFields, if_neg (by decide), if_neg (by decide), if_neg (by decide), if_neg]
  exact fun h => absurd h.1 (by decide)

theorem parseFields_nonce (no_nonce : seen.nonce = false)
    (read : readNonce bytes = .ok (nonce, rest)) (rounds : Nat)
    (fields : List TransactionExtraField) :
    parseFields (rounds + 1) seen fields (tagNonce :: bytes) =
      parseFields rounds { seen with nonce := true } (fields ++ [.nonce nonce]) rest := by
  rw [parseFields, if_neg (by decide), if_neg (by decide), if_pos rfl, if_neg (by simp [no_nonce]), read]

/-- The payment id is looked for in the first nonce. -/
theorem getPaymentIdFromTxExtra_of_nonce {extra : Bytes}
    (first : (parseTransactionExtra extra).2.findSome? nonce? = some nonce) :
    getPaymentIdFromTxExtra extra =
      if (parseTransactionExtra extra).1 then getPaymentIdFromTransactionExtraNonce nonce else none := by
  rw [getPaymentIdFromTxExtra]
  simp only [first]

section Payment

variable {paymentID : Option (Pod 32)} {extraData : Bytes} {publicKey : Pod 32} {powNonce : Pod 8}

/-- What is left of a nonce of 128 bytes or more, and of the other bytes of its length, when the
first byte of the length is taken for the length. -/
def behindNonce (nonce : Bytes) : Bytes :=
  (encode (nonce.length / 128) ++ nonce).drop (nonce.length % 128 + 128)

theorem getPaymentId_of_length_ne (h : nonce.length ≠ 33) :
    getPaymentIdFromTransactionExtraNonce nonce = none := by
  rw [getPaymentIdFromTransactionExtraNonce, dif_neg h]

theorem getPaymentId_extraNonce :
    getPaymentIdFromTransactionExtraNonce (extraNonce paymentID extraData) =
      if extraData = [] then paymentID else none := by
  by_cases empty : extraData = []
  · subst empty
    cases paymentID with
    | none => exact getPaymentId_of_length_ne (by decide)
    | some id =>
      have length : (extraNonce (some id) []).length = 33 := by
        simp [extraNonce, paymentIDField, sizedField, id.property]
      have tail : (extraNonce (some id) []).tail = id.val := by
        simp [extraNonce, paymentIDField, sizedField]
      have head : (extraNonce (some id) []).headD 0 = noncePaymentId := rfl
      rw [getPaymentIdFromTransactionExtraNonce, dif_pos length, if_pos head, if_pos rfl]
      exact congrArg some (Subtype.ext tail)
  · rw [if_neg empty]
    cases paymentID with
    | none =>
      have head : (extraNonce none extraData).headD 0 ≠ noncePaymentId := by
        simp [extraNonce, paymentIDField, sizedField, empty, arbitraryDataIdentifier, noncePaymentId]
      simp only [getPaymentIdFromTransactionExtraNonce, head, ↓reduceIte, dite_eq_ite, ite_self]
    | some id =>
      apply getPaymentId_of_length_ne
      simp [extraNonce, paymentIDField, sizedField, empty, id.property]

/-- Among fields that begin with a key, that key is found. -/
theorem getTransactionPublicKey_of_begins {extra : Bytes}
    (before : fields <+: (parseTransactionExtra extra).2)
    (found : fields.findSome? publicKey? = some publicKey) :
    getTransactionPublicKeyFromExtra extra = publicKey := by
  rw [getTransactionPublicKeyFromExtra, before.findSome?_eq_some found, Option.getD_some]

/-- A payment without a nonce. -/
theorem read_of_no_nonce :
    getTransactionPublicKeyFromExtra (keyFields publicKey powNonce) = publicKey ∧
      getPaymentIdFromTxExtra (keyFields publicKey powNonce) = none := by
  have length : (keyFields publicKey powNonce).length = 40 + 2 := by
    simp [keyFields, publicKey.property, powNonce.property]
  have parsed : parseTransactionExtra (keyFields publicKey powNonce) =
      parseFields 40 { pubkey := true } [.publicKey publicKey] powNonce.val := by
    rw [parseTransactionExtra, length]
    exact parseFields_keyFields rfl 40 []
  constructor
  · exact getTransactionPublicKey_of_begins (parsed ▸ prefix_parseFields ..) rfl
  · -- a nonce among the eight bytes behind the key is too short
    have short : ∀ nonce, .nonce nonce ∈ (parseTransactionExtra (keyFields publicKey powNonce)).2 →
        getPaymentIdFromTransactionExtraNonce nonce = none := by
      intro nonce mem
      rw [parsed] at mem
      have few : nonce.length < powNonce.val.length := by simpa using length_of_nonce_mem mem
      rw [powNonce.property] at few
      exact getPaymentId_of_length_ne (by omega)
    cases found : (parseTransactionExtra (keyFields publicKey powNonce)).2.findSome? nonce? with
    | none => simp [getPaymentIdFromTxExtra, found]
    | some nonce =>
      rw [getPaymentIdFromTxExtra_of_nonce found, short nonce (nonce_mem_of_findSome found), ite_self]

theorem parse_of_short_nonce (some_nonce : nonce ≠ []) (short : nonce.length < 128) :
    parseTransactionExtra (sizedField tagNonce nonce ++ keyFields publicKey powNonce) =
      parseFields (nonce.length + 41) { nonce := true, pubkey := true }
        [.nonce nonce, .publicKey publicKey] powNonce.val := by
  have spelled : sizedField tagNonce nonce ++ keyFields publicKey powNonce =
      tagNonce :: UInt8.ofNat nonce.length :: (nonce ++ keyFields publicKey powNonce) := by
    simp [sizedField, if_neg some_nonce, encode_of_lt short]
  have read : readNonce (UInt8.ofNat nonce.length :: (nonce ++ keyFields publicKey powNonce)) =
      .ok (nonce, keyFields publicKey powNonce) :=
    readNonce_eq_ok_iff.2 ⟨_, (toNat_ofNat (by omega)).symm, rfl⟩
  have length : (sizedField tagNonce nonce ++ keyFields publicKey powNonce).length =
      nonce.length + 41 + 2 + 1 := by
    rw [spelled]
    simp [keyFields, publicKey.property, powNonce.property]
  rw [parseTransactionExtra, length, spelled, parseFields_nonce rfl read]
  exact parseFields_keyFields rfl (nonce.length + 41) [.nonce nonce]

/-- A payment whose nonce has a length of one byte. -/
theorem read_of_short_nonce (some_nonce : extraNonce paymentID extraData ≠ [])
    (short : (extraNonce paymentID extraData).length < 128) :
    getTransactionPublicKeyFromExtra (makeExtra paymentID extraData publicKey powNonce) = publicKey ∧
      getPaymentIdFromTxExtra (makeExtra paymentID extraData publicKey powNonce) =
        if tagsPassed powNonce.val ∧ extraData = [] then paymentID else none := by
  have parsed : parseTransactionExtra (makeExtra paymentID extraData publicKey powNonce) = _ :=
    parse_of_short_nonce some_nonce short
  constructor
  · exact getTransactionPublicKey_of_begins (parsed ▸ prefix_parseFields ..) rfl
  · have first : (parseTransactionExtra (makeExtra paymentID extraData publicKey powNonce)).2.findSome?
        nonce? = some (extraNonce paymentID extraData) :=
      IsPrefix.findSome?_eq_some (parsed ▸ prefix_parseFields ..) rfl
    have ok : (parseTransactionExtra (makeExtra paymentID extraData publicKey powNonce)).1 =
        tagsPassed powNonce.val := by
      rw [parsed, Bool.eq_iff_iff]
      apply parseFields_ok_iff <;> simp [powNonce.property]
    rw [getPaymentIdFromTxExtra_of_nonce first, ok, getPaymentId_extraNonce]
    simp only [ite_and]

/-- A longer nonce is cut, and the key is looked for in what follows the cut. -/
theorem parse_of_long_nonce (long : 128 ≤ nonce.length) :
    ∃ rounds read, (behindNonce nonce ++ rest).length ≤ rounds ∧ 128 ≤ List.length read ∧
      parseTransactionExtra (sizedField tagNonce nonce ++ rest) =
        parseFields rounds { nonce := true } [.nonce read] (behindNonce nonce ++ rest) := by
  let cut := nonce.length % 128 + 128
  let front := encode (nonce.length / 128) ++ nonce
  have some_nonce : nonce ≠ [] := by
    rintro rfl
    simp at long
  have inside : cut ≤ front.length := by
    simp only [cut, front, length_append]
    omega
  have spelled : sizedField tagNonce nonce ++ rest =
      tagNonce :: UInt8.ofNat cut :: (front.take cut ++ (behindNonce nonce ++ rest)) := by
    rw [sizedField, if_neg some_nonce, encode_of_le long, ← append_assoc (front.take cut),
      behindNonce, take_append_drop]
    simp [cut, front]
  have read : readNonce (UInt8.ofNat cut :: (front.take cut ++ (behindNonce nonce ++ rest))) =
      .ok (front.take cut, behindNonce nonce ++ rest) := by
    refine readNonce_eq_ok_iff.2 ⟨_, ?_, rfl⟩
    rw [length_take_of_le inside, toNat_ofNat (by omega)]
  refine ⟨(UInt8.ofNat cut :: (front.take cut ++ (behindNonce nonce ++ rest))).length,
    front.take cut, ?_, ?_, ?_⟩
  · simp only [length_append, length_cons]
    omega
  · rw [length_take_of_le inside]
    exact Nat.le_add_left _ _
  · rw [parseTransactionExtra, spelled, length_cons]
    exact parseFields_nonce rfl read _ []

theorem read_of_long_nonce (long : 128 ≤ nonce.length) :
    (∀ key, (parseTransactionExtra (sizedField tagNonce nonce ++ rest)).2.findSome? publicKey? =
        some key ↔ KeyFirst false (behindNonce nonce ++ rest) key) ∧
      getPaymentIdFromTxExtra (sizedField tagNonce nonce ++ rest) = none := by
  obtain ⟨rounds, read, enough, read_long, parsed⟩ := @parse_of_long_nonce nonce rest long
  constructor
  · intro key
    rw [parsed]
    exact findSome_parseFields_iff enough rfl rfl rfl
  · have first : (parseTransactionExtra (sizedField tagNonce nonce ++ rest)).2.findSome? nonce? =
        some read := IsPrefix.findSome?_eq_some (parsed ▸ prefix_parseFields ..) rfl
    rw [getPaymentIdFromTxExtra_of_nonce first, getPaymentId_of_length_ne (by omega), ite_self]

/-! ### Where the readers agree -/

/-- With a payment id there must be no data, and no error among the bytes of the proof of work.
Without one, data that makes the nonce long must not hide the key. -/
def ReadAlike (extraData : Bytes) (publicKey : Pod 32) (powNonce : Pod 8) : Option (Pod 32) → Prop
  | some _ => extraData = [] ∧ tagsPassed powNonce.val = true
  | none =>
    let nonce := extraNonce none extraData
    let behind := behindNonce nonce ++ keyFields publicKey powNonce
    nonce.length < 128 ∨ KeyFirst false behind publicKey ∨
      publicKey = nullKey ∧ ∀ key, ¬KeyFirst false behind key

theorem podToHex_ne_nil (id : Pod 32) : podToHex id ≠ [] := by
  intro empty
  have length : (podToHex id).length = 2 * id.val.length := length_toHex id.val
  rw [id.property, empty] at length
  simp at length

/-- A first key that is not found is a key of zeros. -/
theorem getD_findSome_eq_iff {first : Pod 32 → Prop}
    (found : ∀ key, fields.findSome? publicKey? = some key ↔ first key) :
    (fields.findSome? publicKey?).getD nullKey = publicKey ↔
      first publicKey ∨ publicKey = nullKey ∧ ∀ key, ¬first key := by
  cases h : fields.findSome? publicKey? with
  | none =>
    have none_first : ∀ key, ¬first key := by
      intro key is_first
      rw [(found key).2 is_first] at h
      cases h
    simp [none_first, eq_comm]
  | some key =>
    have only : ∀ other, first other ↔ key = other := by
      intro other
      rw [← found other, h, Option.some.injEq]
    simp [only]

/-- The node and the wallet read the same key and the same payment id from the extra of a
payment if and only if `ReadAlike` holds. An extra fits a vector. -/
theorem extra_readAlike_iff (paymentID : Option (Pod 32)) (extraData : Bytes) (publicKey : Pod 32)
    (powNonce : Pod 8) (fits : (makeExtra paymentID extraData publicKey powNonce).length < 2 ^ 63) :
    ∃ parsed, parseExtra (makeExtra paymentID extraData publicKey powNonce) = some parsed ∧
      ((getTransactionPublicKeyFromExtra (makeExtra paymentID extraData publicKey powNonce) =
          parsed.transactionPublicKey ∧
        ((getPaymentIdFromTxExtra (makeExtra paymentID extraData publicKey powNonce)).map
          podToHex).getD [] = parsed.paymentID) ↔
        ReadAlike extraData publicKey powNonce paymentID) := by
  refine ⟨_, parseExtra_makeExtra fits, ?_⟩
  by_cases empty : extraNonce paymentID extraData = []
  · obtain ⟨rfl, rfl⟩ := extraNonce_eq_nil.1 empty
    have read := @read_of_no_nonce publicKey powNonce
    have same : makeExtra none [] publicKey powNonce = keyFields publicKey powNonce := rfl
    rw [same, read.1, read.2]
    simp [ReadAlike, extraNonce, paymentIDField, sizedField]
  · by_cases short : (extraNonce paymentID extraData).length < 128
    · have read := @read_of_short_nonce _ _ publicKey powNonce empty short
      rw [read.1, read.2]
      cases paymentID with
      | none => simp [ReadAlike, short]
      | some id =>
        rw [ReadAlike, and_comm (a := extraData = [])]
        by_cases passed : tagsPassed powNonce.val = true ∧ extraData = []
        · simp [passed]
        · simp [passed, (podToHex_ne_nil id).symm]
    · have read := @read_of_long_nonce _ (keyFields publicKey powNonce) (Nat.le_of_not_lt short)
      have same : makeExtra paymentID extraData publicKey powNonce =
          sizedField tagNonce (extraNonce paymentID extraData) ++ keyFields publicKey powNonce := rfl
      rw [same, read.2, getTransactionPublicKeyFromExtra, getD_findSome_eq_iff read.1]
      cases paymentID with
      | none => simp [ReadAlike, short]
      | some id =>
        -- a payment id alone is a short nonce
        have data : extraData ≠ [] := by
          rintro rfl
          simp [extraNonce, paymentIDField, sizedField, id.property] at short
        simp [ReadAlike, data, (podToHex_ne_nil id).symm]

end Payment

end Fields

namespace Sample

def id : Pod 32 := ⟨List.replicate 32 7, rfl⟩

def key : Pod 32 := ⟨List.replicate 32 5, rfl⟩

def pow : Pod 8 := ⟨List.replicate 8 9, rfl⟩

/-- A payment id alone, with a proof of work that has no tags among its bytes. -/
theorem extra_readAlike_id :
    getTransactionPublicKeyFromExtra (makeExtra (some id) [] key pow) = key ∧
      getPaymentIdFromTxExtra (makeExtra (some id) [] key pow) = some id ∧
      ∃ parsed, parseExtra (makeExtra (some id) [] key pow) = some parsed ∧
        (getTransactionPublicKeyFromExtra (makeExtra (some id) [] key pow) =
            parsed.transactionPublicKey ∧
          ((getPaymentIdFromTxExtra (makeExtra (some id) [] key pow)).map podToHex).getD [] =
            parsed.paymentID) := by
  obtain ⟨parsed, found, alike⟩ := extra_readAlike_iff (some id) [] key pow (by decide +kernel)
  exact ⟨by decide +kernel, by decide +kernel, parsed, found, alike.2 ⟨rfl, by decide +kernel⟩⟩

/-- Data of 127 bytes that ends in a zero: the nonce has 129 bytes, the node leaves the last
one, takes it for a padding, and finds no key. -/
theorem key_hidden_by_data :
    getTransactionPublicKeyFromExtra (makeExtra none (List.replicate 127 0) key pow) = nullKey ∧
      (parseExtra (makeExtra none (List.replicate 127 0) key pow)).map (·.transactionPublicKey) =
        some key ∧ nullKey ≠ key := by
  decide +kernel

end Sample

end DeroGold.Extra
