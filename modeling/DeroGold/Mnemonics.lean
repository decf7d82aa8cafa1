import DeroGold.Lib.ByteOrder
import DeroGold.Types
import DeroGold.Text

/-!
Seeds as words (`mnemonics/Mnemonics.cpp`, `mnemonics/CRC32.h`).

A key of 32 bytes is eight numbers of 32 bits, each written with three words of a list of 1626;
the 25th word repeats one of the 24 words, chosen by a checksum of their first three letters.
The reader lower-cases the words when it looks whether they are in the list, but takes their
indexes and the checksum from the words as they were given.

Results:
* `value_of_indexes` / `indexes_of_value`: three indexes and a 32-bit number determine each
  other, and the test on the first index rejects exactly the triples beyond 32 bits;
* `mnemonicToPrivateKey_seedWords`: a key is read back from its words;
* `mnemonic_faithful`: accepted words are the words of the key exactly when no word but the first
  of the list is given with a capital letter and the checksum holds for the lower-cased words.
-/

namespace DeroGold.Mnemonics

open List ByteOrder InputStream

open ByteOrder (littleEndian ofLittleEndian)

abbrev Word := Bytes

def isLowerLetter (c : UInt8) : Bool := 97 ≤ c && c ≤ 122

/-- A list of words as the seeds use them. -/
structure WordList where
  words : List Word
  length_eq : words.length = 1626
  nodup : words.Nodup
  nonempty : ∀ word ∈ words, word ≠ []
  lower : ∀ word ∈ words, ∀ c ∈ word, isLowerLetter c = true

def lowerCase (word : Word) : Word := word.map toLower

inductive MnemonicError where
  | wrongLength (length : Nat)
  | invalidWord (word : Word)
  | invalidChecksum
  | invalidMnemonic
  deriving DecidableEq

def crcTable : List Nat :=
  [0, 1996959894, 3993919788, 2567524794, 124634137, 1886057615, 3915621685, 2657392035, 249268274,
    2044508324, 3772115230, 2547177864, 162941995, 2125561021, 3887607047, 2428444049, 498536548,
    1789927666, 4089016648, 2227061214, 450548861, 1843258603, 4107580753, 2211677639, 325883990,
    1684777152, 4251122042, 2321926636, 335633487, 1661365465, 4195302755, 2366115317, 997073096,
    1281953886, 3579855332, 2724688242, 1006888145, 1258607687, 3524101629, 2768942443, 901097722,
    1119000684, 3686517206, 2898065728, 853044451, 1172266101, 3705015759, 2882616665, 651767980,
    1373503546, 3369554304, 3218104598, 565507253, 1454621731, 3485111705, 3099436303, 671266974,
    1594198024, 3322730930, 2970347812, 795835527, 1483230225, 3244367275, 3060149565, 1994146192,
    31158534, 2563907772, 4023717930, 1907459465, 112637215, 2680153253, 3904427059, 2013776290,
    251722036, 2517215374, 3775830040, 2137656763, 141376813, 2439277719, 3865271297, 1802195444,
    476864866, 2238001368, 4066508878, 1812370925, 453092731, 2181625025, 4111451223, 1706088902,
    314042704, 2344532202, 4240017532, 1658658271, 366619977, 2362670323, 4224994405, 1303535960,
    984961486, 2747007092, 3569037538, 1256170817, 1037604311, 2765210733, 3554079995, 1131014506,
    879679996, 2909243462, 3663771856, 1141124467, 855842277, 2852801631, 3708648649, 1342533948,
    654459306, 3188396048, 3373015174, 1466479909, 544179635, 3110523913, 3462522015, 1591671054,
    702138776, 2966460450, 3352799412, 1504918807, 783551873, 3082640443, 3233442989, 3988292384,
    2596254646, 62317068, 1957810842, 3939845945, 2647816111, 81470997, 1943803523, 3814918930,
    2489596804, 225274430, 2053790376, 3826175755, 2466906013, 167816743, 2097651377, 4027552580,
    2265490386, 503444072, 1762050814, 4150417245, 2154129355, 426522225, 1852507879, 4275313526,
    2312317920, 282753626, 1742555852, 4189708143, 2394877945, 397917763, 1622183637, 3604390888,
    2714866558, 953729732, 1340076626, 3518719985, 2797360999, 1068828381, 1219638859, 3624741850,
    2936675148, 906185462, 1090812512, 3747672003, 2825379669, 829329135, 1181335161, 3412177804,
    3160834842, 628085408, 1382605366, 3423369109, 3138078467, 570562233, 1426400815, 3317316542,
    2998733608, 733239954, 1555261956, 3268935591, 3050360625, 752459403, 1541320221, 2607071920,
    3965973030, 1969922972, 40735498, 2617837225, 3943577151, 1913087877, 83908371, 2512341634,
    3803740692, 2075208622, 213261112, 2463272603, 3855990285, 2094854071, 198958881, 2262029012,
    4057260610, 1759359992, 534414190, 2176718541, 4139329115, 1873836001, 414664567, 2282248934,
    4279200368, 1711684554, 285281116, 2405801727, 4167216745, 1634467795, 376229701, 2685067896,
    3608007406, 1308918612, 956543938, 2808555105, 3495958263, 1231636301, 1047427035, 2932959818,
    3654703836, 1088359270, 936918000, 2847714899, 3736837829, 1202900863, 817233897, 3183342108,
    3401237130, 1404277552, 615818150, 3134207493, 3453421203, 1423857449, 601450431, 3009837614,
    3294710456, 1567103746, 711928724, 3020668471, 3272380065, 1510334235, 755167117]

def crc32 (input : Bytes) : Nat :=
  input.foldl (fun crc c => crc >>> 8 ^^^ crcTable.getD ((c.toNat ^^^ crc) &&& 0xff) 0) 0xFFFFFFFF
    ^^^ 0xFFFFFFFF

def getChecksumWord (words : List Word) : Word :=
  words.getD (crc32 (words.flatMap (take 3)) % words.length) []

def hasValidChecksum (words : List Word) : Bool :=
  words.getLast? == some (getChecksumWord words.dropLast)

section List

variable (list : WordList)

/-- Where the words stand in the list; a word that is not in it gets the length of the list. -/
def getWordIndexes (words : List Word) : List Nat := words.map fun word => list.words.idxOf word

def wlLen : Nat := list.words.length

/-- The number of three indexes. -/
def tripleValue (w1 w2 w3 : Nat) : Nat :=
  uint32 (w1 + wlLen list * ((wlLen list - w1 + w2) % wlLen list) +
    wlLen list * wlLen list * ((wlLen list - w2 + w3) % wlLen list))

/-- The bytes of the key, three indexes at a time. -/
def keyData : List Nat → Except MnemonicError Bytes
  | w1 :: w2 :: w3 :: indexes =>
    let val := tripleValue list w1 w2 w3
    if val % wlLen list ≠ w1 then .error .invalidMnemonic
    else match keyData indexes with
      | .error error => .error error
      | .ok data => .ok (littleEndian 4 val ++ data)
  | _ => .ok []

def mnemonicToPrivateKey (words : List Word) : Except MnemonicError Bytes :=
  if words.length ≠ 25 then .error (.wrongLength words.length)
  else match words.find? fun word => !list.words.contains (lowerCase word) with
    | some word => .error (.invalidWord (lowerCase word))
    | none =>
      if !hasValidChecksum words then .error .invalidChecksum
      else keyData list (getWordIndexes list words)

/-- The words of the numbers a key consists of. -/
def keyWords : Bytes → List Word
  | b1 :: b2 :: b3 :: b4 :: bytes =>
    let val := ofLittleEndian [b1, b2, b3, b4]
    let w1 := val % wlLen list
    let w2 := (val / wlLen list + w1) % wlLen list
    let w3 := (val / wlLen list / wlLen list + w2) % wlLen list
    list.words.getD w1 [] :: list.words.getD w2 [] :: list.words.getD w3 [] :: keyWords bytes
  | _ => []

/-- All words of a key, the checksum word last. -/
def seedWords (privateKey : Bytes) : List Word :=
  let words := keyWords list privateKey
  words ++ [getChecksumWord words]

/-- The words of a key with a blank between any two. -/
def privateKeyToMnemonic (privateKey : Bytes) : Bytes := [32].intercalate (seedWords list privateKey)

end List

/-- The words of a text, as a string stream gives them. -/
def splitWords (text : Bytes) : List Word :=
  (text.splitOnP isSpace).filter fun word => !word.isEmpty

/-- The key of a text of words. -/
def mnemonicTextToPrivateKey (list : WordList) (text : Bytes) : Except MnemonicError Bytes :=
  mnemonicToPrivateKey list (splitWords text)

/-! ### Three indexes and a number -/

section Triple

variable {list : WordList}

@[simp]
theorem wlLen_eq : wlLen list = 1626 := list.length_eq

/-- The sum in front of the reduction to 32 bits. -/
theorem tripleValue_eq (w1 w2 w3 : Nat) : tripleValue list w1 w2 w3 =
    (w1 + 1626 * ((1626 - w1 + w2) % 1626) + 2643876 * ((1626 - w2 + w3) % 1626)) % 2 ^ 32 := by
  rw [tripleValue, wlLen_eq]
  rfl

variable {w1 w2 w3 : Nat}

/-- The three indexes of a number give the number back. -/
theorem value_of_indexes {val : Nat} (h : val < 2 ^ 32) (first : w1 = val % 1626)
    (second : w2 = (val / 1626 + w1) % 1626) (third : w3 = (val / 1626 / 1626 + w2) % 1626) :
    tripleValue list w1 w2 w3 = val := by
  have w1_lt : w1 < 1626 := by omega
  have w2_lt : w2 < 1626 := by omega
  have middle : (1626 - w1 + w2) % 1626 = val / 1626 % 1626 := by omega
  have last : (1626 - w2 + w3) % 1626 = val / 1626 / 1626 := by omega
  rw [tripleValue_eq, middle, last]
  omega

/-- A difference of indexes added to the first one gives the second one. -/
theorem difference_add {n a b : Nat} (h : a ≤ n) : ((n - a + b) % n + a) % n = b % n := by
  have sum : n - a + b + a = n + b := by omega
  rw [Nat.mod_add_mod, sum, Nat.add_mod_left]

/-- The test on the first index rejects the triples whose sum does not fit 32 bits; an index of
1626 acts like 0 in the second and third place. -/
theorem indexes_of_value (w1_le : w1 ≤ 1626) (w2_le : w2 ≤ 1626)
    (accepted : tripleValue list w1 w2 w3 % 1626 = w1) :
    tripleValue list w1 w2 w3 < 2 ^ 32 ∧ w1 < 1626 ∧
    (tripleValue list w1 w2 w3 / 1626 + w1) % 1626 = w2 % 1626 ∧
    (tripleValue list w1 w2 w3 / 1626 / 1626 + w2 % 1626) % 1626 = w3 % 1626 := by
  have w1_lt : w1 < 1626 := by
    rw [← accepted]
    exact Nat.mod_lt _ (by decide)
  have value := @tripleValue_eq list w1 w2 w3
  have middle_lt : (1626 - w1 + w2) % 1626 < 1626 := Nat.mod_lt _ (by decide)
  have last_lt : (1626 - w2 + w3) % 1626 < 1626 := Nat.mod_lt _ (by decide)
  have second : ((1626 - w1 + w2) % 1626 + w1) % 1626 = w2 % 1626 := difference_add w1_le
  have third : ((1626 - w2 + w3) % 1626 + w2 % 1626) % 1626 = w3 % 1626 := by
    rw [Nat.add_mod_mod, difference_add w2_le]
  generalize (1626 - w1 + w2) % 1626 = middle at *
  generalize (1626 - w2 + w3) % 1626 = last at *
  have sum_eq : w1 + 1626 * middle + 2643876 * last = w1 + 1626 * (middle + 1626 * last) := by ring
  have fits : w1 + 1626 * (middle + 1626 * last) < 2 ^ 32 := by
    by_contra large
    rw [not_lt] at large
    have bound : w1 + 1626 * (middle + 1626 * last) - 2 ^ 32 < 2 ^ 32 := by omega
    rw [value, sum_eq, Nat.mod_eq_sub_mod large, Nat.mod_eq_of_lt bound] at accepted
    -- `2 ^ 32` is not a multiple of 1626, so the remainder is another one
    omega
  have quotient : (w1 + 1626 * (middle + 1626 * last)) / 1626 = middle + 1626 * last := by
    rw [Nat.add_mul_div_left _ _ (by decide), Nat.div_eq_of_lt w1_lt, zero_add]
  have quotient' : (middle + 1626 * last) / 1626 = last := by
    rw [Nat.add_mul_div_left _ _ (by decide), Nat.div_eq_of_lt middle_lt, zero_add]
  rw [sum_eq, Nat.mod_eq_of_lt fits] at value
  rw [value, quotient, quotient']
  refine ⟨fits, w1_lt, ?_, third⟩
  rw [Nat.add_right_comm, Nat.add_mul_mod_self_left, second]

end Triple

/-! ### Words of the list -/

section Words

variable {list : WordList}
  {c : UInt8} {word : Word} {index : Nat}

theorem toLower_of_isLowerLetter : isLowerLetter c = true → toLower c = c :=
  forall_byte (P := fun c => isLowerLetter c = true → toLower c = c) (by decide +kernel) c

theorem isSpace_of_isLowerLetter : isLowerLetter c = true → isSpace c = false :=
  forall_byte (P := fun c => isLowerLetter c = true → isSpace c = false)
    (by decide +kernel) c

theorem lowerCase_of_mem (mem : word ∈ list.words) : lowerCase word = word := by
  conv_rhs => rw [← map_id word]
  exact map_congr_left fun c inside => toLower_of_isLowerLetter (list.lower word mem c inside)

/-- The word at an index of the list. -/
theorem getD_mem (h : index < 1626) : list.words.getD index [] ∈ list.words := by
  have inside : index < list.words.length := by rwa [list.length_eq]
  rw [getD_eq_getElem _ _ inside]
  exact getElem_mem inside

theorem idxOf_getD (h : index < 1626) : list.words.idxOf (list.words.getD index []) = index := by
  have inside : index < list.words.length := by rwa [list.length_eq]
  rw [getD_eq_getElem _ _ inside]
  exact list.nodup.idxOf_getElem index inside

theorem getD_idxOf (mem : word ∈ list.words) :
    list.words.getD (list.words.idxOf word) [] = word := by
  have inside := idxOf_lt_length_iff.2 mem
  rw [getD_eq_getElem _ _ inside, getElem_idxOf]

theorem idxOf_le (word : Word) : list.words.idxOf word ≤ 1626 := by
  rw [← list.length_eq]
  exact idxOf_le_length

/-- The word a given word is read as: a word that is not spelled as in the list is read as the
first one. -/
def readAs (list : WordList) (word : Word) : Word :=
  list.words.getD (list.words.idxOf word % 1626) []

theorem readAs_eq_lowerCase_iff (known : lowerCase word ∈ list.words) :
    readAs list word = lowerCase word ↔
      lowerCase word = word ∨ lowerCase word = list.words.getD 0 [] := by
  rw [readAs]
  by_cases mem : word ∈ list.words
  · have inside := idxOf_lt_length_iff.2 mem
    rw [list.length_eq] at inside
    rw [Nat.mod_eq_of_lt inside, getD_idxOf mem, lowerCase_of_mem mem]
    simp
  · have missing : list.words.idxOf word = 1626 := by
      rw [idxOf_eq_length_iff.2 mem, list.length_eq]
    have capital : lowerCase word ≠ word := by
      intro same
      rw [same] at known
      exact mem known
    rw [missing]
    simp [capital, eq_comm]

theorem splitWords_intercalate {words : List Word} (nonempty : ∀ word ∈ words, word ≠ [])
    (solid : ∀ word ∈ words, ∀ c ∈ word, isSpace c = false) :
    splitWords ([32].intercalate words) = words := by
  induction words with
  | nil => rfl
  | cons word words ih =>
    have word_ne := nonempty word mem_cons_self
    have rest := ih (forall_mem_cons.1 nonempty).2
      (forall_mem_cons.1 solid).2
    have word_solid := solid word mem_cons_self
    cases words with
    | nil =>
      have single : [32].intercalate [word] = word := by simp [intercalate]
      rw [splitWords, single, splitOnP_eq_singleton word_solid]
      simpa using word_ne
    | cons next words =>
      have joined : [32].intercalate (word :: next :: words) =
          word ++ 32 :: [32].intercalate (next :: words) := by simp [intercalate]
      rw [splitWords] at rest ⊢
      rw [joined, splitOnP_append_cons_of_forall_mem word_solid _ (by decide),
        filter_cons_of_pos (by simpa using word_ne), rest]

end Words

/-! ### Keys and their words -/

section Keys

variable {list : WordList}

variable {words : List Word} {count : Nat} {key : Bytes}

theorem getChecksumWord_mem (nonempty : words ≠ []) : getChecksumWord words ∈ words := by
  have inside : crc32 (words.flatMap (take 3)) % words.length < words.length :=
    Nat.mod_lt _ (length_pos_of_ne_nil nonempty)
  rw [getChecksumWord, getD_eq_getElem _ _ inside]
  exact getElem_mem inside

theorem exists_three {α : Type} {xs : List α} (h : xs.length = 3 + count) :
    ∃ x y z rest, xs = x :: y :: z :: rest ∧ rest.length = count := by
  obtain ⟨x, xs, rfl⟩ := exists_cons_of_length_pos (l := xs) (by omega)
  rw [length_cons] at h
  obtain ⟨y, xs, rfl⟩ := exists_cons_of_length_pos (l := xs) (by omega)
  rw [length_cons] at h
  obtain ⟨z, xs, rfl⟩ := exists_cons_of_length_pos (l := xs) (by omega)
  rw [length_cons] at h
  exact ⟨x, y, z, xs, rfl, by omega⟩

/-- A list of at least four bytes begins with four bytes. -/
theorem exists_four {bytes : Bytes} (h : bytes.length = 4 * (count + 1)) :
    ∃ b1 b2 b3 b4 rest, bytes = b1 :: b2 :: b3 :: b4 :: rest ∧ rest.length = 4 * count := by
  obtain ⟨b1, bytes, rfl⟩ := exists_cons_of_length_pos (l := bytes) (by omega)
  rw [length_cons] at h
  obtain ⟨b2, b3, b4, rest, rfl, left⟩ := exists_three (by omega : bytes.length = 3 + 4 * count)
  exact ⟨b1, b2, b3, b4, rest, rfl, left⟩

theorem keyWords_mem (key : Bytes) : ∀ word ∈ keyWords list key, word ∈ list.words := by
  have at_index : ∀ n, list.words.getD (n % wlLen list) [] ∈ list.words := fun n => by
    rw [wlLen_eq]
    exact getD_mem (Nat.mod_lt _ (by decide))
  fun_induction keyWords list key with
  | case1 b1 b2 b3 b4 rest val w1 w2 w3 ih =>
    simp only [forall_mem_cons]
    exact ⟨at_index _, at_index _, at_index _, ih⟩
  | case2 => simp

theorem length_keyWords {key : Bytes} (h : key.length = 4 * count) :
    (keyWords list key).length = 3 * count := by
  induction count generalizing key with
  | zero =>
    obtain rfl := length_eq_zero_iff.1 h
    rfl
  | succ count ih =>
    obtain ⟨b1, b2, b3, b4, rest, rfl, rest_length⟩ := exists_four h
    simp only [keyWords, length_cons, ih rest_length]
    omega

/-- The indexes of a key's words give the key back; what follows them is not looked at. -/
theorem keyData_keyWords {key : Bytes} (h : key.length = 4 * count) (index : Nat) :
    keyData list (getWordIndexes list (keyWords list key) ++ [index]) = .ok key := by
  induction count generalizing key with
  | zero =>
    obtain rfl := length_eq_zero_iff.1 h
    rfl
  | succ count ih =>
    obtain ⟨b1, b2, b3, b4, rest, rfl, rest_length⟩ := exists_four h
    have val_lt : ofLittleEndian [b1, b2, b3, b4] < 2 ^ 32 := by
      simpa using ofLittleEndian_lt [b1, b2, b3, b4]
    have bytes : littleEndian 4 (ofLittleEndian [b1, b2, b3, b4]) = [b1, b2, b3, b4] :=
      littleEndian_ofLittleEndian [b1, b2, b3, b4]
    simp only [keyWords, wlLen_eq, getWordIndexes, map_cons, cons_append]
    generalize ofLittleEndian [b1, b2, b3, b4] = val at *
    have value : tripleValue list (val % 1626) ((val / 1626 + val % 1626) % 1626)
        ((val / 1626 / 1626 + (val / 1626 + val % 1626) % 1626) % 1626) = val :=
      value_of_indexes val_lt rfl rfl rfl
    have rest_eq := ih rest_length
    rw [getWordIndexes] at rest_eq
    rw [idxOf_getD (Nat.mod_lt _ (by decide)), idxOf_getD (Nat.mod_lt _ (by decide)),
      idxOf_getD (Nat.mod_lt _ (by decide)), keyData, value, wlLen_eq, if_neg (by simp), bytes]
    simp only [rest_eq, cons_append, nil_append]

/-- The words of an accepted key are the words the given ones are read as. -/
theorem keyWords_of_keyData {words : List Word} {key : Bytes} {index : Nat}
    (h : words.length = 3 * count)
    (found : keyData list (getWordIndexes list words ++ [index]) = .ok key) :
    key.length = 4 * count ∧ keyWords list key = words.map (readAs list) := by
  induction count generalizing words key index with
  | zero =>
    obtain rfl := length_eq_zero_iff.1 h
    cases found
    exact ⟨rfl, rfl⟩
  | succ count ih =>
    obtain ⟨w1, w2, w3, rest, rfl, rest_length⟩ := exists_three (by omega : words.length = 3 + 3 * count)
    simp only [getWordIndexes, map_cons, cons_append, keyData, wlLen_eq] at found
    split_ifs at found with accepted
    rw [not_not] at accepted
    cases tail : keyData list (rest.map (fun word => list.words.idxOf word) ++ [index]) with
    | error error => simp [tail] at found
    | ok data =>
      simp only [tail, Except.ok.injEq] at found
      subst found
      obtain ⟨data_length, data_words⟩ := ih rest_length tail
      obtain ⟨val_lt, w1_lt, second, third⟩ := indexes_of_value (idxOf_le w1) (idxOf_le w2) accepted
      generalize tripleValue list (list.words.idxOf w1) (list.words.idxOf w2)
        (list.words.idxOf w3) = val at *
      refine ⟨by rw [length_append, length_littleEndian]; omega, ?_⟩
      have bytes : ofLittleEndian (littleEndian 4 val) = val := ofLittleEndian_littleEndian val_lt
      have one_word : (littleEndian 4 val).length = 4 * (0 + 1) := length_littleEndian 4 val
      obtain ⟨b1, b2, b3, b4, none_left, four, empty⟩ := exists_four one_word
      obtain rfl := length_eq_zero_iff.1 empty
      rw [four] at bytes ⊢
      simp only [cons_append, nil_append, keyWords, wlLen_eq, bytes, accepted, second,
        third, data_words, map_cons, readAs, Nat.mod_eq_of_lt w1_lt]

/-! ### Seeds -/

theorem length_seedWords (h : key.length = 32) : (seedWords list key).length = 25 := by
  have count : key.length = 4 * 8 := h
  rw [seedWords, length_append, length_keyWords count]
  rfl

theorem seedWords_mem (h : key.length = 32) : ∀ word ∈ seedWords list key, word ∈ list.words := by
  have count : key.length = 4 * 8 := h
  have length_eq : (keyWords list key).length = 3 * 8 := length_keyWords count
  have front_ne : keyWords list key ≠ [] := ne_nil_of_length_pos (by omega)
  intro word mem
  simp only [seedWords, mem_append, mem_singleton] at mem
  rcases mem with mem | rfl
  · exact keyWords_mem key word mem
  · exact keyWords_mem key _ (getChecksumWord_mem front_ne)

/-- The words of a key of 32 bytes come apart again. -/
theorem splitWords_privateKeyToMnemonic (h : key.length = 32) :
    splitWords (privateKeyToMnemonic list key) = seedWords list key :=
  splitWords_intercalate (fun word mem => list.nonempty word (seedWords_mem h word mem))
    fun word mem c inside =>
      isSpace_of_isLowerLetter (list.lower word (seedWords_mem h word mem) c inside)

theorem hasValidChecksum_append (words : List Word) (last : Word) :
    hasValidChecksum (words ++ [last]) = true ↔ last = getChecksumWord words := by
  simp [hasValidChecksum]

/-- A key is read back from its words. -/
theorem mnemonicToPrivateKey_seedWords (h : key.length = 32) :
    mnemonicToPrivateKey list (seedWords list key) = .ok key := by
  have count : key.length = 4 * 8 := h
  have known : (seedWords list key).find? (fun word => !list.words.contains (lowerCase word)) =
      none := by
    rw [find?_eq_none]
    intro word mem
    have in_list : word ∈ list.words := seedWords_mem h word mem
    simp [lowerCase_of_mem in_list, in_list]
  have valid : hasValidChecksum (seedWords list key) = true := (hasValidChecksum_append _ _).2 rfl
  have indexes : getWordIndexes list (seedWords list key) = getWordIndexes list (keyWords list key) ++
      [list.words.idxOf (getChecksumWord (keyWords list key))] := by
    simp [getWordIndexes, seedWords]
  rw [mnemonicToPrivateKey, if_neg (by simp [length_seedWords h]), known]
  simp only [valid, Bool.not_true, Bool.false_eq_true, if_false, indexes]
  exact keyData_keyWords count _

/-- What an accepted list of words is made of: 24 words that are read as the words of the key, and
the checksum word of the 24 words as they were given. -/
theorem exists_of_mnemonicToPrivateKey (found : mnemonicToPrivateKey list words = .ok key) :
    ∃ front last, words = front ++ [last] ∧ key.length = 32 ∧
      (∀ word ∈ words, lowerCase word ∈ list.words) ∧
      keyWords list key = front.map (readAs list) := by
  rw [mnemonicToPrivateKey] at found
  by_cases wrong : words.length ≠ 25
  · rw [if_pos wrong] at found
    cases found
  rw [if_neg wrong] at found
  rw [not_not] at wrong
  cases known : words.find? (fun word => !list.words.contains (lowerCase word)) with
  | some word =>
    rw [known] at found
    cases found
  | none =>
    simp only [known] at found
    split_ifs at found
    obtain ⟨front, last, rfl⟩ : ∃ front last, words = front ++ [last] := by
      refine ⟨words.dropLast, words.getLast (ne_nil_of_length_pos (by omega)), ?_⟩
      rw [dropLast_append_getLast]
    have front_length : front.length = 3 * 8 := by simpa using wrong
    have indexes : getWordIndexes list (front ++ [last]) =
        getWordIndexes list front ++ [list.words.idxOf last] := by simp [getWordIndexes]
    rw [indexes] at found
    obtain ⟨key_length, key_words⟩ := keyWords_of_keyData front_length found
    refine ⟨front, last, rfl, key_length, ?_, key_words⟩
    intro word mem
    simpa using find?_eq_none.1 known word mem

/-- A capital letter is used in no other word than the first of the list, and the checksum holds
for the words in lower case as well. -/
def ReadAsSpelled (list : WordList) (words : List Word) : Prop :=
  (∀ word ∈ words.dropLast, lowerCase word = word ∨ lowerCase word = list.words.getD 0 []) ∧
    hasValidChecksum (words.map lowerCase) = true
  deriving Decidable

/-- Seeds are faithful: a key is read back from its words, and accepted words are in lower case
the words of their key exactly when they are read as they are spelled. -/
theorem mnemonic_faithful (list : WordList) :
    (∀ key : Pod 32, mnemonicTextToPrivateKey list (privateKeyToMnemonic list key.val) =
      .ok key.val) ∧
    ∀ (words : List Word) (key : Bytes), words.length = 25 →
      mnemonicToPrivateKey list words = .ok key →
      (splitWords (privateKeyToMnemonic list key) = words.map lowerCase ↔
        ReadAsSpelled list words) := by
  constructor
  · intro key
    rw [mnemonicTextToPrivateKey, splitWords_privateKeyToMnemonic key.property,
      mnemonicToPrivateKey_seedWords key.property]
  · intro words key _ found
    obtain ⟨front, last, rfl, key_length, known, key_words⟩ := exists_of_mnemonicToPrivateKey found
    have front_known : ∀ word ∈ front, (readAs list word = lowerCase word ↔
        lowerCase word = word ∨ lowerCase word = list.words.getD 0 []) := fun word mem =>
      readAs_eq_lowerCase_iff (known word (mem_append_left _ mem))
    rw [splitWords_privateKeyToMnemonic key_length, seedWords, key_words, ReadAsSpelled,
      dropLast_concat, map_append, map_singleton, hasValidChecksum_append]
    constructor
    · intro same
      obtain ⟨front_eq, last_eq⟩ := append_inj' same rfl
      refine ⟨fun word mem => (front_known word mem).1 (map_inj_left.1 front_eq word mem), ?_⟩
      rw [← front_eq]
      simpa using last_eq.symm
    · rintro ⟨spelled, checksum⟩
      have front_eq : front.map (readAs list) = front.map lowerCase :=
        map_congr_left fun word mem => (front_known word mem).2 (spelled word mem)
      rw [front_eq, checksum]

end Keys

namespace Sample

/-- A word of three letters for every number below `26 ^ 3`. -/
def word (n : Nat) : Word :=
  [UInt8.ofNat (97 + n / 676), UInt8.ofNat (97 + n / 26 % 26), UInt8.ofNat (97 + n % 26)]

theorem isLowerLetter_ofNat {n : Nat} (h : n < 26) : isLowerLetter (UInt8.ofNat (97 + n)) = true := by
  have every : ∀ n : Fin 26, isLowerLetter (UInt8.ofNat (97 + n)) = true := by decide +kernel
  exact every ⟨n, h⟩

/-- 1626 words of three letters each. -/
def list : WordList where
  words := (range 1626).map word
  length_eq := by simp
  nodup := by
    apply List.Nodup.map_on _ nodup_range
    intro m hm n hn same
    rw [mem_range] at hm hn
    simp only [word, cons.injEq, ← UInt8.toNat_inj, UInt8.toNat_ofNat', and_true] at same
    omega
  nonempty := by
    intro w mem
    obtain ⟨n, -, rfl⟩ := mem_map.1 mem
    simp [word]
  lower := by
    intro w mem c inside
    obtain ⟨n, bound, rfl⟩ := mem_map.1 mem
    rw [mem_range] at bound
    simp only [word, mem_cons, not_mem_nil, or_false] at inside
    rcases inside with rfl | rfl | rfl
    · exact isLowerLetter_ofNat (by omega)
    · exact isLowerLetter_ofNat (Nat.mod_lt _ (by decide))
    · exact isLowerLetter_ofNat (Nat.mod_lt _ (by decide))

/-- The first word of the list 25 times. -/
def plain : List Word := replicate 25 (word 0)

/-- The key 1 is read back, and the first word of the list may be written in capital letters. -/
theorem mnemonic_faithful_here :
    let key := 1 :: replicate 31 0
    mnemonicTextToPrivateKey list (privateKeyToMnemonic list key) = .ok key ∧
      splitWords (privateKeyToMnemonic list key) =
        (replicate 3 (word 1) ++ word 0 :: [65, 65, 65] :: replicate 20 (word 0)).map lowerCase :=
  ⟨(mnemonic_faithful list).1 ⟨_, rfl⟩,
    ((mnemonic_faithful list).2 _ _ rfl (by decide +kernel)).2 (by decide +kernel)⟩

/-- The same with the second word replaced by the second word of the list, in capital letters. -/
def capital : List Word := plain.set 1 [65, 65, 66]

/-- The capital word is found in the list but read as the first one: the words are accepted with
the key of all zeros, in whose words the second word of the list does not occur. -/
theorem capital_read_wrong : mnemonicToPrivateKey list capital = .ok (replicate 32 0) ∧
    splitWords (privateKeyToMnemonic list (replicate 32 0)) ≠ capital.map lowerCase := by
  refine ⟨by decide +kernel, ?_⟩
  rw [splitWords_privateKeyToMnemonic rfl]
  decide +kernel

end Sample

end DeroGold.Mnemonics
