import Mathlib.Data.List.Basic

/-!
# Ascending lists of texts

Texts are compared byte by byte, and a text is sought in an ascending list by halving the stretch
in which it can still be.

* `Text.bytes_lt_iff`: the order of the bytes is that of the code points. A code point that is
  larger has larger bytes, whatever follows it (`Text.utf8EncodeChar_append_lt`).
* `Text.search` answers where a text is, or where it belongs. In an ascending list this is the only
  right answer (`Text.search_eq_iff`).
-/

namespace Wharf.Text

variable {s t text other : String} {texts : List String}

/-! ## The order of bytes -/

/-- The bytes of a text. -/
def bytes (text : String) : List UInt8 := text.toUTF8.data.toList

theorem bytes_eq_flatMap (text : String) :
    bytes text = text.toList.flatMap String.utf8EncodeChar := by
  rw [bytes, String.toUTF8_eq_toByteArray, ← String.utf8Encode_toList, List.utf8Encode,
    List.toList_data_toByteArray]

theorem codePoint_lt (c : Char) : c.val.toNat < 1114112 := by
  have h := c.valid
  simp only [UInt32.isValidChar, Nat.isValidChar] at h
  omega

/-- Numbers are compared by their digits of six bits, the highest ones first. -/
theorem sixBits_lt {m n : Nat} (h : m < n) :
    m / 262144 < n / 262144 ∨ m / 262144 = n / 262144 ∧
      (m / 4096 % 64 < n / 4096 % 64 ∨ m / 4096 % 64 = n / 4096 % 64 ∧
        (m / 64 % 64 < n / 64 % 64 ∨ m / 64 % 64 = n / 64 % 64 ∧ m % 64 < n % 64)) := by
  omega

/-- **The bytes of a larger code point are larger**, whatever follows. -/
theorem utf8EncodeChar_append_lt {c d : Char} (h : c < d) (xs ys : List UInt8) :
    String.utf8EncodeChar c ++ xs < String.utf8EncodeChar d ++ ys := by
  have hlt : c.val.toNat < d.val.toNat := h
  have hc := codePoint_lt c
  have hd := codePoint_lt d
  have hdigits := sixBits_lt hlt
  simp only [String.utf8EncodeChar]
  generalize c.val.toNat = m at *
  generalize d.val.toNat = n at *
  -- One to four bytes each. Where their numbers differ the first byte decides.
  repeat' split
  all_goals
    simp (disch := omega) only [List.cons_append, List.nil_append, List.cons_lt_cons_iff,
      UInt8.lt_iff_toNat_lt, ← UInt8.toNat_inj, UInt8.toNat_ofNat', Nat.mod_eq_of_lt]
    omega

theorem flatMap_utf8EncodeChar_lt {cs ds : List Char} (h : cs < ds) :
    cs.flatMap String.utf8EncodeChar < ds.flatMap String.utf8EncodeChar := by
  induction cs generalizing ds with
  | nil =>
    cases ds with
    | nil => exact absurd h (List.lt_irrefl _)
    | cons d ds =>
      rw [List.flatMap_cons]
      cases hd : String.utf8EncodeChar d with
      | nil => exact absurd hd String.utf8EncodeChar_ne_nil
      | cons b bs => exact List.nil_lt_cons b _
  | cons c cs ih =>
    cases ds with
    | nil => exact absurd h (List.not_lt_nil _)
    | cons d ds =>
      rw [List.flatMap_cons, List.flatMap_cons]
      obtain hlt | ⟨rfl, htail⟩ := List.cons_lt_cons_iff.1 h
      · exact utf8EncodeChar_append_lt hlt _ _
      · exact List.append_left_lt (ih htail)

theorem bytes_lt_of_lt (h : s < t) : bytes s < bytes t := by
  rw [bytes_eq_flatMap, bytes_eq_flatMap]
  exact flatMap_utf8EncodeChar_lt (String.lt_iff.1 h)

/-- **The order of bytes is the order of code points.** -/
theorem bytes_lt_iff : bytes s < bytes t ↔ s < t := by
  refine ⟨fun h => ?_, bytes_lt_of_lt⟩
  by_contra hnot
  have hle : t ≤ s := String.not_lt.1 hnot
  by_cases hlt : t < s
  · exact List.lt_asymm h (bytes_lt_of_lt hlt)
  · obtain rfl : s = t := String.le_antisymm (String.not_lt.1 hlt) hle
    exact List.lt_irrefl _ h

/-! ## Searching -/

/-- What a search answers. -/
inductive Place
  /-- The text is there. -/
  | found (index : Nat)
  /-- The text is not there, and this is where it belongs. -/
  | missing (index : Nat)
  deriving DecidableEq

/-- Whether the text is there. -/
def Place.isFound : Place → Bool
  | found _ => true
  | missing _ => false

/-- Looks at the middle of the stretch from `low` up to `high`, and goes on in one half. -/
def bisect (texts : List String) (text : String) (low high : Nat) : Place :=
  if low < high then
    let middle := low + (high - low) / 2
    let other := texts.getD middle ""
    if other = text then .found middle
    else if bytes other < bytes text then bisect texts text (middle + 1) high
    else bisect texts text low middle
  else .missing low
termination_by high - low

/-- Seeks a text in an ascending list. -/
def search (texts : List String) (text : String) : Place := bisect texts text 0 texts.length

/-- A right answer: the text is there, or the list is cut where it belongs. -/
def Place.IsOf (text : String) (texts : List String) : Place → Prop
  | found index => texts[index]? = some text
  | missing index => ∃ before after, texts = before ++ after ∧ before.length = index ∧
      (∀ other ∈ before, other < text) ∧ ∀ other ∈ after, text < other

/-- In an ascending list smaller texts stand before one and larger ones behind it. -/
theorem lt_of_getElem? {index : Nat} (h : texts.Pairwise (· < ·))
    (hother : texts[index]? = some other) :
    (∀ x ∈ texts.take index, x < other) ∧ ∀ x ∈ texts.drop (index + 1), other < x := by
  obtain ⟨hlt, rfl⟩ := List.getElem?_eq_some_iff.1 hother
  have hsplit := List.take_append_drop index texts
  rw [List.drop_eq_getElem_cons hlt] at hsplit
  rw [← hsplit, List.pairwise_append, List.pairwise_cons] at h
  obtain ⟨-, ⟨hafter, -⟩, hbefore⟩ := h
  exact ⟨fun x hx => hbefore x hx _ List.mem_cons_self, hafter⟩

theorem bisect_isOf {low high : Nat} (h : texts.Pairwise (· < ·)) (hle : low ≤ high)
    (hhigh : high ≤ texts.length) (hbelow : ∀ x ∈ texts.take low, x < text)
    (habove : ∀ x ∈ texts.drop high, text < x) : (bisect texts text low high).IsOf text texts := by
  fun_induction bisect texts text low high with
  | case1 low high hlt middle other heq =>
    have hmiddle : middle < texts.length := by omega
    rw [Place.IsOf, List.getElem?_eq_getElem hmiddle, ← heq]
    simp [other, hmiddle]
  | case2 low high hlt middle other hne hless ih =>
    have hmiddle : middle < texts.length := by omega
    have hother : texts[middle]? = some other := by simp [other, hmiddle]
    refine ih (by omega) hhigh (fun x hx => ?_) habove
    rw [List.take_add_one, hother, List.mem_append] at hx
    obtain hx | hx := hx
    · exact String.lt_trans ((lt_of_getElem? h hother).1 x hx) (bytes_lt_iff.1 hless)
    · obtain rfl : x = other := by simpa using hx
      exact bytes_lt_iff.1 hless
  | case3 low high hlt middle other hne hless ih =>
    have hmiddle : middle < texts.length := by omega
    have hother : texts[middle]? = some other := by simp [other, hmiddle]
    have hlarger : text < other := by
      by_contra hnot
      rw [bytes_lt_iff] at hless
      exact hne (String.le_antisymm (String.not_lt.1 hnot) (String.not_lt.1 hless))
    refine ih (by omega) (by omega) hbelow fun x hx => ?_
    obtain ⟨_, hget⟩ := List.getElem?_eq_some_iff.1 hother
    rw [List.drop_eq_getElem_cons hmiddle, hget] at hx
    obtain rfl | hx := List.mem_cons.1 hx
    · exact hlarger
    · exact String.lt_trans hlarger ((lt_of_getElem? h hother).2 x hx)
  | case4 low high hge =>
    obtain rfl : low = high := by omega
    exact ⟨texts.take low, texts.drop low, (List.take_append_drop low texts).symm,
      List.length_take_of_le hhigh, hbelow, habove⟩

/-- **A search in an ascending list is right.** -/
theorem search_isOf (h : texts.Pairwise (· < ·)) (text : String) :
    (search texts text).IsOf text texts :=
  bisect_isOf h (Nat.zero_le _) (Nat.le_refl _) (by simp) (by simp)

theorem Place.IsOf.isFound_iff {p : Place} (h : p.IsOf text texts) :
    p.isFound = true ↔ text ∈ texts := by
  cases p with
  | found index => exact iff_of_true rfl (List.mem_of_getElem? h)
  | missing index =>
    obtain ⟨before, after, rfl, -, hbefore, hafter⟩ := h
    refine iff_of_false (by simp [Place.isFound]) fun hmem => ?_
    obtain hmem | hmem := List.mem_append.1 hmem
    · exact String.lt_irrefl _ (hbefore text hmem)
    · exact String.lt_irrefl _ (hafter text hmem)

/-- A text belongs behind those that are smaller. -/
theorem Place.IsOf.index_eq {index : Nat} (h : (missing index).IsOf text texts) :
    index = (texts.filter fun other => other < text).length := by
  obtain ⟨before, after, rfl, rfl, hbefore, hafter⟩ := h
  have hall : before.filter (fun other => other < text) = before :=
    List.filter_eq_self.2 fun other hother => decide_eq_true (hbefore other hother)
  have hnone : after.filter (fun other => other < text) = [] :=
    List.filter_eq_nil_iff.2 fun other hother => by
      simpa using String.lt_asymm (hafter other hother)
  rw [List.filter_append, hall, hnone, List.append_nil]

theorem nodup_of_ascending (h : texts.Pairwise (· < ·)) : texts.Nodup := by
  refine h.imp fun {a b} hab => ?_
  rintro rfl
  exact String.lt_irrefl a hab

/-- **A search in an ascending list gives the only right answer.** -/
theorem search_eq_iff (h : texts.Pairwise (· < ·)) {p : Place} :
    search texts text = p ↔ p.IsOf text texts := by
  have hsearch := search_isOf h text
  constructor
  · rintro rfl
    exact hsearch
  · intro hp
    have hsame := hsearch.isFound_iff.trans hp.isFound_iff.symm
    cases hplace : search texts text with
    | found index =>
      rw [hplace] at hsearch hsame
      cases p with
      | missing other => simp [Place.isFound] at hsame
      | found other =>
        obtain ⟨hlt, -⟩ := List.getElem?_eq_some_iff.1 hsearch
        rw [(List.getElem?_inj hlt (nodup_of_ascending h)).1 (hsearch.trans hp.symm)]
    | missing index =>
      rw [hplace] at hsearch hsame
      cases p with
      | found other => simp [Place.isFound] at hsame
      | missing other => rw [hsearch.index_eq, hp.index_eq]

/-- A text is found just if it is there. -/
theorem isFound_search_iff (h : texts.Pairwise (· < ·)) :
    (search texts text).isFound = true ↔ text ∈ texts :=
  (search_isOf h text).isFound_iff

end Wharf.Text
