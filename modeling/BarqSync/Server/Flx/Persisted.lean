/-
The visible objects of a session as they are stored (`server.cpp`).

# Keys

A key is the table's name, a tab and the spelling of the primary key. Only
the spelling of a string can have a tab, so two objects share a key just
if the name of one table goes on, behind the name of the other, with the
beginning of such a spelling (`Splits`).

# Text

What is read is put under the key that is derived from it, as it was
before. The text is written if table names and string keys are UTF-8: all
other strings in it are ASCII.
-/
import BarqSync.Server.Flx.Json
import BarqSync.Server.Flx.Proofs.Keys
import BarqSync.Server.Flx.Session

namespace BarqSync.Flx

-- ===== primary keys

/-- `parse_xdigit`. -/
def parseXdigit (ch : UInt8) : Option ℕ :=
  if 48 ≤ ch ∧ ch ≤ 57 then some (ch.toNat - 48)
  else if 97 ≤ ch ∧ ch ≤ 102 then some (ch.toNat - 97 + 10)
  else if 65 ≤ ch ∧ ch ≤ 70 then some (ch.toNat - 65 + 10)
  else none

/-- The bytes of a hexadecimal text. -/
def unhex : Bytes → Option Bytes
  | [] => some []
  | [_] => none
  | high :: low :: rest => do
    let byte := (← parseXdigit high) * 16 + (← parseXdigit low)
    return byte.toUInt8 :: (← unhex rest)

/-- `ObjectId::is_valid_str` and the constructor. -/
def parseObjectId (text : Bytes) : Option Bytes :=
  if text.length = 24 then unhex text else none

/-- `UUID::is_valid_string` and the constructor. -/
def parseUuid (text : Bytes) : Option Bytes :=
  if text.length = 36 ∧ ∀ i ∈ [8, 13, 18, 23], text[i]? = some 45 then
    unhex (text.take 8 ++ (text.drop 9).take 4 ++ (text.drop 14).take 4
      ++ (text.drop 19).take 4 ++ text.drop 24)
  else none

/-- `GlobalKey::from_string`; there is no result where it throws. -/
def parseGlobalKey (text : Bytes) : Option GlobalKey :=
  let high := text.tail.takeWhile (· ≠ 45)
  let low := (text.tail.drop (high.length + 1)).dropLast
  if 5 ≤ text.length ∧ text.head? = some 123 ∧ text.getLast? = some 125
      ∧ 45 ∈ text ∧ high ≠ [] ∧ high.length ≤ 16 ∧ low ≠ []
      ∧ low.length ≤ 16 then do
    let high ← high.mapM parseXdigit
    let low ← low.mapM parseXdigit
    return ⟨(Nat.ofDigits 16 high.reverse).toUInt64,
      (Nat.ofDigits 16 low.reverse).toUInt64⟩
  else none

/-- A primary key with its type in front. -/
def typedKey (type : List Char) (value : List (Bytes × Json)) : Json :=
  .object ((bytes ['t', 'y', 'p', 'e'], .string (bytes type)) :: value)

/-- `json["value"]`. -/
def valueMember (value : Json) : List (Bytes × Json) :=
  [(bytes ['v', 'a', 'l', 'u', 'e'], value)]

/-- `flx_primary_key_to_json`. -/
def flxPrimaryKeyToJson : PrimaryKey Bytes → Json
  | .null => typedKey ['n', 'u', 'l', 'l'] []
  | .int i => typedKey ['i', 'n', 't'] (valueMember (.integer i.toInt))
  | .string s =>
    typedKey ['s', 't', 'r', 'i', 'n', 'g'] (valueMember (.string s))
  | .globalKey k => typedKey ['g', 'l', 'o', 'b', 'a', 'l']
      (valueMember (.string (globalKeyString k)))
  | .objectId id => typedKey ['o', 'b', 'j', 'e', 'c', 't', 'i', 'd']
      (valueMember (.string (hexBytes id)))
  | .uuid id => typedKey ['u', 'u', 'i', 'd']
      (valueMember (.string (uuidString id)))

/-- The part of `flx_primary_key_from_json` for values that are
strings. -/
def keyOfString (type text : Bytes) : Except Unit (Option (PrimaryKey Bytes)) :=
  if type = bytes ['s', 't', 'r', 'i', 'n', 'g'] then
    .ok (some (.string text))
  else if type = bytes ['g', 'l', 'o', 'b', 'a', 'l'] then
    (parseGlobalKey text).elim (.error ()) fun k => .ok (some (.globalKey k))
  else if type = bytes ['o', 'b', 'j', 'e', 'c', 't', 'i', 'd'] then
    .ok ((parseObjectId text).map .objectId)
  else if type = bytes ['u', 'u', 'i', 'd'] then
    .ok ((parseUuid text).map .uuid)
  else .ok none

/-- `flx_primary_key_from_json`: an exception, or the key if there is
one. -/
def flxPrimaryKeyFromJson (json : Json) :
    Except Unit (Option (PrimaryKey Bytes)) :=
  ((json.member? ['t', 'y', 'p', 'e']).bind Json.string?).elim (.ok none)
    fun type =>
      if type = bytes ['n', 'u', 'l', 'l'] then .ok (some .null)
      else (json.member? ['v', 'a', 'l', 'u', 'e']).elim (.ok none)
        fun value =>
          if type = bytes ['i', 'n', 't'] then
            .ok (value.integer?.map fun i => .int (Int64.ofInt i))
          else value.string?.elim (.ok none) (keyOfString type)

-- ===== visible objects

/-- One object of `flx_visible_objects_to_json`. -/
def visibleObjectToJson (ref : ObjectRef) : Json :=
  .object [(bytes ['p', 'r', 'i', 'm', 'a', 'r', 'y', 'K', 'e', 'y'],
      flxPrimaryKeyToJson ref.2),
    (bytes ['t', 'a', 'b', 'l', 'e'], .string ref.1)]

/-- `flx_visible_objects_to_json`. -/
def flxVisibleObjectsToJson (library : JsonLibrary)
    (visible : VisibleObjects) : Option Bytes :=
  library.dump (.object [(bytes ['o', 'b', 'j', 'e', 'c', 't', 's'],
    .array (visible.toList.map fun e => visibleObjectToJson e.2))])

/-- One turn of the loop of `flx_visible_objects_from_json`. -/
def readObject (visible : VisibleObjects) (object : Json) :
    Except Unit VisibleObjects :=
  ((object.member? ['t', 'a', 'b', 'l', 'e']).bind Json.string?).elim
    (.ok visible) fun table =>
      (object.member? ['p', 'r', 'i', 'm', 'a', 'r', 'y', 'K', 'e',
        'y']).elim (.ok visible) fun json =>
          (flxPrimaryKeyFromJson json).map fun key =>
            key.elim visible fun key => emplaceVisible visible (table, key)

/-- `flx_visible_objects_from_json`. -/
def flxVisibleObjectsFromJson (library : JsonLibrary) (text : Bytes) :
    VisibleObjects :=
  if text = [] then ∅
  else
    match (library.parse text).bind fun root =>
      (root.member? ['o', 'b', 'j', 'e', 'c', 't', 's']).bind
        Json.array? with
    | none => ∅
    | some objects =>
      match objects.foldlM readObject ∅ with
      | .ok visible => visible
      | .error _ => ∅

-- ===== when two keys are equal

/-- A primary key a column can have: the ids have their sizes. -/
def Plain : PrimaryKey Bytes → Prop
  | .globalKey _ => False
  | .objectId id => id.length = 12
  | .uuid id => id.length = 16
  | _ => True

/-- The name `other` is `table`, a tab and the beginning of the spelling
of a string that goes on with a tab and the spelling of a key. -/
def Splits (table other : Bytes) : Prop :=
  ∃ start key, Plain key ∧ other = table ++ 9 ::
    (bytes ['s', 't', 'r', 'i', 'n', 'g', ':']
      ++ decimal (start ++ 9 :: flxPrimaryKeyPart key).length
      ++ 58 :: start)

theorem mem_hexBytes {bs : Bytes} {c : UInt8} (hc : c ∈ hexBytes bs) :
    48 ≤ c ∧ c < 128 := by
  obtain ⟨b, -, hc⟩ := List.mem_flatMap.1 hc
  have hb := b.toNat_lt
  have hdigit (d : ℕ) (hd : d < 16) :
      48 ≤ hexDigit d ∧ hexDigit d < 128 := by
    interval_cases d <;> decide
  rcases List.mem_pair.1 hc with rfl | rfl
  · exact hdigit _ (by omega)
  · exact hdigit _ (by omega)

/-- A UUID is spelled with hexadecimal digits and dashes. -/
theorem mem_uuidString {id : Bytes} {c : UInt8} (hc : c ∈ uuidString id) :
    c = 45 ∨ c ∈ hexBytes id := by
  rw [or_iff_not_imp_left, ← filter_uuidString]
  exact fun hne => List.mem_filter.2 ⟨hc, by simpa using hne⟩

theorem tab_notMem_hexBytes (bs : Bytes) : 9 ∉ hexBytes bs :=
  fun hmem => absurd (mem_hexBytes hmem).1 (by decide)

theorem tab_notMem_decimal (n : ℕ) : 9 ∉ decimal n :=
  fun hmem => absurd (mem_decimal hmem).1 (by decide)

/-- Only the spelling of a string can have a tab. -/
theorem eq_string_of_tab {key : PrimaryKey Bytes} (hkey : Plain key)
    (htab : 9 ∈ flxPrimaryKeyPart key) : ∃ s, key = .string s := by
  cases key with
  | null => exact absurd htab (by decide)
  | string s => exact ⟨s, rfl⟩
  | globalKey k => exact hkey.elim
  | int i =>
    rcases List.mem_append.1 htab with h | h
    · exact absurd h (by decide)
    · unfold signedDecimal at h
      split at h
      · exact absurd ((List.mem_cons.1 h).resolve_left (by decide))
          (tab_notMem_decimal _)
      · exact absurd h (tab_notMem_decimal _)
  | objectId id =>
    rcases List.mem_append.1 htab with h | h
    · exact absurd h (by decide)
    · exact absurd h (tab_notMem_hexBytes _)
  | uuid id =>
    rcases List.mem_append.1 htab with h | h
    · exact absurd h (by decide)
    · rcases mem_uuidString h with h | h
      · exact absurd h (by decide)
      · exact absurd h (tab_notMem_hexBytes _)

/-- A key that begins with a longer name: the rest of the name is in the
spelling of a string. -/
theorem eq_of_not_splits {table more : Bytes} {key key' : PrimaryKey Bytes}
    (hkey : Plain key) (hkey' : Plain key')
    (hnone : ¬ Splits table (table ++ more))
    (h : 9 :: flxPrimaryKeyPart key = more ++ 9 :: flxPrimaryKeyPart key') :
    more = [] ∧ key = key' := by
  cases more with
  | nil => exact ⟨rfl, flxPrimaryKeyPart_injective (List.cons.inj h).2⟩
  | cons c more =>
    rw [List.cons_append, List.cons.injEq] at h
    obtain ⟨rfl, h⟩ := h
    obtain ⟨s, rfl⟩ := eq_string_of_tab hkey (by simp [h])
    -- the tab is behind the length and the colon
    rcases List.append_eq_append_iff.1 h with ⟨start, hmore, hs⟩
      | ⟨rest, hhead, hs⟩
    · cases start with
      | nil => exact absurd (List.cons.inj hs).1 (by decide)
      | cons c start =>
        rw [List.cons_append, List.cons.injEq] at hs
        obtain ⟨rfl, rfl⟩ := hs
        exact absurd ⟨start, key', hkey', by rw [hmore]⟩ hnone
    · cases rest with
      | nil => exact absurd (List.cons.inj hs).1 (by decide)
      | cons c rest =>
        have htab : (9 : UInt8) ∈ more ++ c :: rest := by
          simp [(List.cons.inj hs).1]
        rw [← hhead] at htab
        rcases List.mem_append.1 htab with htab | htab
        · exact absurd htab (by decide)
        · exact absurd htab (tab_notMem_decimal _)

theorem flxVisibleObjectKey_inj_iff (names : Set Bytes) :
    (∀ r r' : ObjectRef, r.1 ∈ names → r'.1 ∈ names → Plain r.2
      → Plain r'.2 → flxVisibleObjectKey r = flxVisibleObjectKey r'
      → r = r')
    ↔ ∀ t ∈ names, ∀ t' ∈ names, ¬ Splits t t' := by
  constructor
  · intro hinj t ht t' ht' hsplit
    obtain ⟨start, key, hkey, rfl⟩ := hsplit
    have h := hinj (t, .string (start ++ 9 :: flxPrimaryKeyPart key))
      (_, key) ht ht' trivial hkey (by
        simp [flxVisibleObjectKey, flxPrimaryKeyPart])
    simpa using congrArg (fun r : ObjectRef => r.1.length) h
  · intro hnone r r' hr hr' hkey hkey' h
    rcases List.append_eq_append_iff.1 h with ⟨more, htable, hpart⟩
      | ⟨more, htable, hpart⟩
    · obtain ⟨rfl, heq⟩ := eq_of_not_splits hkey hkey'
        (htable ▸ hnone _ hr _ hr') hpart
      exact Prod.ext (by simpa using htable.symm) heq
    · obtain ⟨rfl, heq⟩ := eq_of_not_splits hkey' hkey
        (htable ▸ hnone _ hr' _ hr) hpart
      exact Prod.ext (by simpa using htable) heq.symm

-- ===== what is written

theorem utf8EncodeChar_ofUInt8 {b : UInt8} (h : b < 128) :
    String.utf8EncodeChar (Char.ofUInt8 b) = [b] := by
  have hb : b.toNat ≤ 127 := by
    have := UInt8.lt_iff_toNat_lt.1 h
    simp at this
    omega
  simp [String.utf8EncodeChar, Char.ofUInt8, hb]

theorem isValidUTF8_of_ascii {s : Bytes} (h : ∀ b ∈ s, b < 128) :
    s.toByteArray.IsValidUTF8 := by
  refine ⟨s.map Char.ofUInt8, ?_⟩
  rw [List.utf8Encode, List.flatMap_map]
  congr 1
  induction s with
  | nil => rfl
  | cons b s ih =>
    rw [List.flatMap_cons, utf8EncodeChar_ofUInt8 (h b List.mem_cons_self),
      ← ih fun c hc => h c (List.mem_cons_of_mem b hc)]
    rfl

theorem strings_typedKey {type : List Char} {value : Json} {s : Bytes}
    (htype : ∀ b ∈ bytes type, b < 128)
    (hs : s ∈ (typedKey type (valueMember value)).strings) :
    s ∈ value.strings ∨ ∀ b ∈ s, b < 128 := by
  simp only [typedKey, valueMember, Json.strings, Json.memberStrings,
    List.cons_append, List.nil_append, List.append_nil,
    List.mem_cons] at hs
  rcases hs with rfl | rfl | rfl | hs
  · exact .inr (by decide +kernel)
  · exact .inr htype
  · exact .inr (by decide +kernel)
  · exact .inl hs

/-- The strings of a key are a string key and ASCII. -/
theorem strings_flxPrimaryKeyToJson {key : PrimaryKey Bytes}
    (hkey : Plain key) {s : Bytes}
    (hs : s ∈ (flxPrimaryKeyToJson key).strings) :
    key = .string s ∨ ∀ b ∈ s, b < 128 := by
  cases key with
  | globalKey => exact hkey.elim
  | null =>
    refine .inr ((?_ : ∀ s ∈ (flxPrimaryKeyToJson .null).strings,
      ∀ b ∈ s, b < 128) s hs)
    decide +kernel
  | int i =>
    refine .inr ((strings_typedKey (by decide +kernel) hs).resolve_left ?_)
    simp [Json.strings]
  | string t =>
    refine (strings_typedKey (by decide +kernel) hs).imp_left fun h => ?_
    rw [List.mem_singleton.1 h]
  | objectId id =>
    refine .inr ((strings_typedKey (by decide +kernel) hs).elim (fun h b hb => ?_)
      fun h => h)
    rw [List.mem_singleton.1 h] at hb
    exact (mem_hexBytes hb).2
  | uuid id =>
    refine .inr ((strings_typedKey (by decide +kernel) hs).elim (fun h b hb => ?_)
      fun h => h)
    rw [List.mem_singleton.1 h] at hb
    rcases mem_uuidString hb with rfl | hb
    · decide
    · exact (mem_hexBytes hb).2

/-- The table and a string key are UTF-8. -/
def IsText (ref : ObjectRef) : Prop :=
  ref.1.toByteArray.IsValidUTF8
    ∧ ∀ s, ref.2 = .string s → s.toByteArray.IsValidUTF8

theorem strings_visibleObjectToJson {ref : ObjectRef} (href : Plain ref.2)
    (htext : IsText ref) {s : Bytes}
    (hs : s ∈ (visibleObjectToJson ref).strings) :
    s.toByteArray.IsValidUTF8 := by
  simp only [visibleObjectToJson, Json.strings, Json.memberStrings,
    List.cons_append, List.append_nil, List.mem_cons, List.mem_append,
    List.not_mem_nil, or_false] at hs
  rcases hs with rfl | hs | rfl | rfl
  · exact isValidUTF8_of_ascii (by decide +kernel)
  · exact (strings_flxPrimaryKeyToJson href hs).elim (htext.2 s)
      isValidUTF8_of_ascii
  · exact isValidUTF8_of_ascii (by decide +kernel)
  · exact htext.1

/-- Visible objects with texts that are UTF-8 are written. -/
theorem isSome_flxVisibleObjectsToJson (library : JsonLibrary)
    {visible : VisibleObjects}
    (hvisible : ∀ (k : Bytes) r, visible[k]? = some r
      → Plain r.2 ∧ IsText r) :
    (flxVisibleObjectsToJson library visible).isSome = true := by
  refine (library.dump_isSome _).2 fun s hs => ?_
  simp only [Json.strings, Json.memberStrings, List.append_nil,
    List.mem_cons] at hs
  rcases hs with rfl | hs
  · exact isValidUTF8_of_ascii (by decide +kernel)
  obtain ⟨json, hjson, hs⟩ := Json.mem_elemStrings.1 hs
  obtain ⟨e, he, rfl⟩ := List.mem_map.1 hjson
  obtain ⟨hplain, htext⟩ := hvisible e.1 e.2
    (Std.ExtTreeMap.mem_toList_iff_getElem?_eq_some.1 he)
  exact strings_visibleObjectToJson hplain htext hs

-- ===== what is read back

theorem parseXdigit_hexDigit {d : ℕ} (hd : d < 16) :
    parseXdigit (hexDigit d) = some d := by
  interval_cases d <;> rfl

theorem unhex_hexBytes (bs : Bytes) : unhex (hexBytes bs) = some bs := by
  induction bs with
  | nil => rfl
  | cons b bs ih =>
    have hb := b.toNat_lt
    have hbyte : (b.toNat / 16 * 16 + b.toNat % 16).toUInt8 = b := by
      rw [Nat.div_add_mod']
      exact UInt8.ofNat_toNat
    rw [hexBytes_cons, unhex, parseXdigit_hexDigit (by omega),
      parseXdigit_hexDigit (by omega), ih]
    exact congrArg (fun c => some (c :: bs)) hbyte

theorem parseUuid_uuidString {id : Bytes} (hid : id.length = 16) :
    parseUuid (uuidString id) = some id := by
  match id, hid with
  | [b0, b1, b2, b3, b4, b5, b6, b7, b8, b9, b10, b11, b12, b13, b14, b15],
    _ => exact unhex_hexBytes [b0, b1, b2, b3, b4, b5, b6, b7, b8, b9, b10,
      b11, b12, b13, b14, b15]

theorem fromJson_toJson {key : PrimaryKey Bytes} (hkey : Plain key) :
    flxPrimaryKeyFromJson (flxPrimaryKeyToJson key) = .ok (some key) := by
  cases key with
  | null => rfl
  | string s => rfl
  | globalKey k => exact hkey.elim
  | int i =>
    show Except.ok (some (PrimaryKey.int (Int64.ofInt i.toInt))) = _
    rw [Int64.ofInt_toInt]
  | objectId id =>
    show Except.ok ((parseObjectId (hexBytes id)).map _) = _
    have hlength : (hexBytes id).length = 24 := by
      simp [hexBytes, show id.length = 12 from hkey]
    rw [parseObjectId, if_pos hlength, unhex_hexBytes]
    rfl
  | uuid id =>
    show Except.ok ((parseUuid (uuidString id)).map _) = _
    rw [parseUuid_uuidString hkey]
    rfl

theorem readObject_visibleObjectToJson {ref : ObjectRef}
    (href : Plain ref.2) (visible : VisibleObjects) :
    readObject visible (visibleObjectToJson ref)
      = .ok (emplaceVisible visible ref) := by
  show (flxPrimaryKeyFromJson (flxPrimaryKeyToJson ref.2)).map _ = _
  rw [fromJson_toJson href]
  rfl

section persist

variable {all : VisibleObjects}

/-- What is read belongs to the map that was written. -/
def ReadFrom (all visible : VisibleObjects) : Prop :=
  ∀ k : Bytes, visible[k]? = none ∨ visible[k]? = all[k]?

theorem getElem?_emplaceVisible {visible : VisibleObjects} {ref : ObjectRef}
    (hvisible : ReadFrom all visible)
    (href : all[flxVisibleObjectKey ref]? = some ref) (k : Bytes) :
    (emplaceVisible visible ref)[k]?
      = if k = flxVisibleObjectKey ref then all[k]? else visible[k]? := by
  rw [emplaceVisible, Std.ExtTreeMap.getElem?_insertIfNew]
  by_cases hk : k = flxVisibleObjectKey ref
  · subst hk
    rw [if_pos rfl, href]
    by_cases hmem : flxVisibleObjectKey ref ∈ visible
    · rw [if_neg (fun h => h.2 hmem), ← href]
      refine (hvisible _).resolve_left fun hnone => ?_
      simpa [hnone] using Std.ExtTreeMap.isSome_getElem?_iff_mem.2 hmem
    · rw [if_pos ⟨Std.compare_eq_iff_eq.2 rfl, hmem⟩]
  · rw [if_neg hk, if_neg (fun h => hk (Std.compare_eq_iff_eq.1 h.1).symm)]

/-- Reading the objects that were written: by induction over them. -/
theorem foldlM_readObject (refs : List ObjectRef) :
    ∀ visible, (∀ r ∈ refs, Plain r.2
        ∧ all[flxVisibleObjectKey r]? = some r) →
      ReadFrom all visible →
      ∃ visible', (refs.map visibleObjectToJson).foldlM readObject visible
          = .ok visible'
        ∧ ∀ k, visible[k]? = all[k]? ∨ k ∈ refs.map flxVisibleObjectKey
          → visible'[k]? = all[k]? := by
  induction refs with
  | nil =>
    intro visible _ _
    exact ⟨visible, rfl, fun k hk => by simpa using hk⟩
  | cons r refs ih =>
    intro visible hrefs hvisible
    obtain ⟨hplain, hr⟩ := hrefs r List.mem_cons_self
    have hget := getElem?_emplaceVisible hvisible hr
    obtain ⟨visible', hfold, hread⟩ := ih (emplaceVisible visible r)
      (fun r' hr' => hrefs r' (List.mem_cons_of_mem _ hr')) (by
        intro k
        rw [hget]
        split
        · exact .inr rfl
        · exact hvisible k)
    refine ⟨visible', ?_, fun k hk => hread k ?_⟩
    · rw [List.map_cons, List.foldlM_cons,
        readObject_visibleObjectToJson hplain]
      exact hfold
    · rw [hget]
      by_cases hkey : k = flxVisibleObjectKey r
      · exact .inl (if_pos hkey)
      · rw [if_neg hkey]
        simpa [hkey] using hk

theorem fromJson_flxVisibleObjectsToJson (library : JsonLibrary)
    {text : Bytes}
    (hall : ∀ (k : Bytes) r, all[k]? = some r
      → k = flxVisibleObjectKey r ∧ Plain r.2)
    (htext : flxVisibleObjectsToJson library all = some text) :
    flxVisibleObjectsFromJson library text = all := by
  obtain ⟨hne, hparse⟩ := library.parse_dump _ _ htext
  obtain ⟨visible, hfold, hread⟩ := @foldlM_readObject all
    (all.toList.map Prod.snd) ∅ (by
      intro r hr
      obtain ⟨e, he, rfl⟩ := List.mem_map.1 hr
      have hget := Std.ExtTreeMap.mem_toList_iff_getElem?_eq_some.1 he
      obtain ⟨hkey, hplain⟩ := hall _ _ hget
      exact ⟨hplain, hkey ▸ hget⟩)
    (fun k => .inl Std.ExtTreeMap.getElem?_empty)
  have heq : visible = all := by
    apply Std.ExtTreeMap.ext_getElem?
    intro k
    apply hread
    cases hget : all[k]? with
    | none => exact .inl Std.ExtTreeMap.getElem?_empty
    | some r =>
      refine .inr (List.mem_map.2 ⟨r, ?_, (hall k r hget).1.symm⟩)
      exact List.mem_map.2
        ⟨(k, r), Std.ExtTreeMap.mem_toList_iff_getElem?_eq_some.2 hget, rfl⟩
  rw [List.map_map] at hfold
  rw [flxVisibleObjectsFromJson, if_neg hne, hparse]
  show (match (all.toList.map (visibleObjectToJson ∘ Prod.snd)).foldlM
    readObject ∅ with | .ok visible => visible | .error _ => ∅) = all
  rw [hfold]
  exact heq

end persist

/-- Two objects of a table `T`. -/
def visiblePair : VisibleObjects :=
  let string : ObjectRef := ([84], .string [97])
  let uuid : ObjectRef := ([84], .uuid (.replicate 16 7))
  ((∅ : VisibleObjects).insert (flxVisibleObjectKey string) string).insert
    (flxVisibleObjectKey uuid) uuid

end BarqSync.Flx
