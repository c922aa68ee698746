import Mathlib.Data.List.TakeDrop

/-!
# Texts as UTF-8 bytes

A character is one byte below 128, or a byte from 192 on with continuation bytes behind it.
A byte offset that is no continuation byte's cuts a text between two characters.
-/
namespace Kuadrat.Utf8

/-- The bytes of a text. -/
def bytes (t : List Char) : List UInt8 := t.flatMap String.utf8EncodeChar

/-- The text of some bytes, when they are valid UTF-8. -/
def decode (bs : List UInt8) : Option (List Char) :=
  (ByteArray.utf8Decode? ⟨bs.toArray⟩).map Array.toList

@[simp] theorem bytes_nil : bytes [] = [] := rfl

@[simp] theorem bytes_cons (c : Char) (t : List Char) :
    bytes (c::t) = String.utf8EncodeChar c ++ bytes t := rfl

@[simp] theorem bytes_append (s t : List Char) : bytes (s ++ t) = bytes s ++ bytes t :=
  List.flatMap_append

@[simp] theorem decode_bytes (t : List Char) : decode (bytes t) = some t := by
  have h := List.utf8Decode?_utf8Encode (l := t)
  have hbytes : (⟨(bytes t).toArray⟩ : ByteArray) = t.utf8Encode := by
    apply ByteArray.ext
    simp [List.utf8Encode,bytes]
  rw [decode,hbytes,h]
  simp

theorem bytes_injective {s t : List Char} (h : bytes s = bytes t) : s = t := by
  have hs := decode_bytes s
  rw [h,decode_bytes] at hs
  exact (Option.some.inj hs).symm

/-- `10xxxxxx`. -/
def isContinuation (b : UInt8) : Bool := 128 ≤ b.toNat && b.toNat < 192

theorem utf8EncodeChar_ascii {c : Char} (h : c.toNat < 128) :
    String.utf8EncodeChar c = [UInt8.ofNat c.toNat] := by
  change c.val.toNat < 128 at h
  delta String.utf8EncodeChar
  rw [if_pos (by omega)]
  rfl

theorem toNat_ofNat_ascii {c : Char} (h : c.toNat < 128) :
    (UInt8.ofNat c.toNat).toNat = c.toNat := by
  rw [UInt8.toNat_ofNat']
  omega

/-- A character beyond ASCII starts with a byte from 192 on and goes on with continuation
bytes. -/
theorem utf8EncodeChar_wide {c : Char} (h : 128 ≤ c.toNat) :
    ∃ b rest, String.utf8EncodeChar c = b::rest ∧ 192 ≤ b.toNat ∧
      rest.length ≤ 3 ∧ ∀ x ∈ rest, isContinuation x = true := by
  change 128 ≤ c.val.toNat at h
  have hcont : ∀ n : ℕ, isContinuation (UInt8.ofNat (n%64+128)) = true := by
    intro n
    simp only [isContinuation,UInt8.toNat_ofNat',Bool.and_eq_true,decide_eq_true_eq]
    omega
  delta String.utf8EncodeChar
  simp only
  split
  · omega
  split
  · refine ⟨_,_,rfl,?_,Nat.le_add_left _ _,?_⟩
    · rw [UInt8.toNat_ofNat']
      omega
    · exact List.forall_mem_singleton.mpr (hcont _)
  split
  · refine ⟨_,_,rfl,?_,Nat.le_add_left _ _,?_⟩
    · rw [UInt8.toNat_ofNat']
      omega
    · exact List.forall_mem_cons.mpr ⟨hcont _,List.forall_mem_singleton.mpr (hcont _)⟩
  · refine ⟨_,_,rfl,?_,Nat.le_refl _,?_⟩
    · rw [UInt8.toNat_ofNat']
      omega
    · exact List.forall_mem_cons.mpr ⟨hcont _,List.forall_mem_cons.mpr
        ⟨hcont _,List.forall_mem_singleton.mpr (hcont _)⟩⟩

/-- The first byte of a character is no continuation byte; the others, three at most, are. -/
theorem utf8EncodeChar_eq_cons (c : Char) : ∃ b rest, String.utf8EncodeChar c = b::rest ∧
    isContinuation b = false ∧ rest.length ≤ 3 ∧ ∀ x ∈ rest, isContinuation x = true := by
  by_cases h : c.toNat < 128
  · refine ⟨_,[],utf8EncodeChar_ascii h,?_,by simp,by simp⟩
    simp only [isContinuation,UInt8.toNat_ofNat',Bool.and_eq_false_iff,decide_eq_false_iff_not]
    omega
  · obtain ⟨b,rest,he,hb,hlen,hrest⟩ := utf8EncodeChar_wide (Nat.le_of_not_lt h)
    refine ⟨b,rest,he,?_,hlen,hrest⟩
    simp only [isContinuation,Bool.and_eq_false_iff,decide_eq_false_iff_not]
    omega

/-- `str::is_char_boundary`, from the bytes of the text. -/
def isCharBoundary (bs : List UInt8) (i : ℕ) : Bool :=
  i == 0 || match bs[i]? with
    | some b => !isContinuation b
    | none => i == bs.length

/-- `&t[..i]`, which panics inside a character and beyond the end. -/
def sliceTo (bs : List UInt8) (i : ℕ) : Option (List Char) :=
  if isCharBoundary bs i then decode (bs.take i) else none

theorem isCharBoundary_of_continuation {bs : List UInt8} {k : ℕ} {b : UInt8}
    (h : bs[k+1]? = some b) (hb : isContinuation b = true) :
    isCharBoundary bs (k+1) = false := by
  simp [isCharBoundary,h,hb]

/-- A text starts on a boundary. -/
theorem not_isContinuation_head {t : List Char} {b : UInt8} (h : (bytes t)[0]? = some b) :
    isContinuation b = false := by
  cases t with
  | nil => simp at h
  | cons c t =>
    obtain ⟨b',rest,he,hb,-,-⟩ := utf8EncodeChar_eq_cons c
    rw [bytes_cons,he,List.cons_append,List.getElem?_cons_zero,Option.some.injEq] at h
    rwa [← h]

/-- The boundaries behind a character are those of the text that follows it. -/
theorem isCharBoundary_cons_add (c : Char) (t : List Char) (j : ℕ) :
    isCharBoundary (bytes (c::t)) ((String.utf8EncodeChar c).length+j) =
      isCharBoundary (bytes t) j := by
  have hpos : (String.utf8EncodeChar c).length ≠ 0 := by
    obtain ⟨b,rest,he,-⟩ := utf8EncodeChar_eq_cons c
    simp [he]
  have hget : (bytes (c::t))[(String.utf8EncodeChar c).length+j]? = (bytes t)[j]? := by
    rw [bytes_cons,List.getElem?_append_right (Nat.le_add_right _ _),Nat.add_sub_cancel_left]
  have hzero : ((String.utf8EncodeChar c).length+j == 0) = false := by
    rw [beq_eq_false_iff_ne]
    omega
  rw [isCharBoundary,isCharBoundary,hget,hzero,Bool.false_or]
  cases hb : (bytes t)[j]? with
  | some b =>
    by_cases hj : j = 0
    · subst hj
      simp [not_isContinuation_head hb]
    · simp [hj]
  | none =>
    rw [bytes_cons,List.length_append,Bool.eq_iff_iff]
    simp only [beq_iff_eq,Bool.or_eq_true]
    have := List.getElem?_eq_none_iff.mp hb
    omega

/-- The boundaries of a text are the ends of its beginnings. -/
theorem isCharBoundary_iff (t : List Char) (i : ℕ) :
    isCharBoundary (bytes t) i = true ↔ ∃ p, p <+: t ∧ (bytes p).length = i := by
  induction t generalizing i with
  | nil =>
    simp only [isCharBoundary,bytes_nil,List.getElem?_nil,List.length_nil,Bool.or_self,
      beq_iff_eq,List.prefix_nil,exists_eq_left]
    exact eq_comm
  | cons c t ih =>
    by_cases hlt : i < (String.utf8EncodeChar c).length
    · constructor
      · intro h
        refine ⟨[],List.nil_prefix,?_⟩
        by_contra hne
        obtain ⟨b,rest,he,-,-,hrest⟩ := utf8EncodeChar_eq_cons c
        obtain ⟨k,rfl⟩ := Nat.exists_eq_succ_of_ne_zero (Ne.symm hne)
        rw [he,List.length_cons] at hlt
        -- a byte behind the first one of a character continues it
        have hk : k < rest.length := by omega
        have hbyte : (bytes (c::t))[k+1]? = some rest[k] := by
          rw [bytes_cons,he,List.cons_append,List.getElem?_cons_succ,
            List.getElem?_append_left hk,List.getElem?_eq_getElem hk]
        rw [isCharBoundary_of_continuation hbyte (hrest _ (List.getElem_mem hk))] at h
        exact absurd h Bool.false_ne_true
      · rintro ⟨p,hp,rfl⟩
        rcases List.prefix_cons_iff.mp hp with rfl | ⟨p',rfl,-⟩
        · rfl
        · rw [bytes_cons,List.length_append] at hlt
          omega
    · obtain ⟨j,rfl⟩ := Nat.exists_eq_add_of_le (Nat.le_of_not_lt hlt)
      rw [isCharBoundary_cons_add,ih]
      constructor
      · rintro ⟨p,hp,rfl⟩
        exact ⟨c::p,(List.prefix_cons_inj c).mpr hp,by rw [bytes_cons,List.length_append]⟩
      · rintro ⟨p,hp,hlen⟩
        rcases List.prefix_cons_iff.mp hp with rfl | ⟨p',rfl,hp'⟩
        · obtain ⟨b,rest,he,-⟩ := utf8EncodeChar_eq_cons c
          rw [he,bytes_nil,List.length_nil,List.length_cons] at hlen
          omega
        · rw [bytes_cons,List.length_append] at hlen
          exact ⟨p',hp',by omega⟩

/-- A slice up to a boundary is the beginning that ends there. -/
theorem sliceTo_bytes {p t : List Char} (h : p <+: t) :
    sliceTo (bytes t) (bytes p).length = some p := by
  have hb : isCharBoundary (bytes t) (bytes p).length = true :=
    (isCharBoundary_iff t _).mpr ⟨p,h,rfl⟩
  obtain ⟨s,rfl⟩ := h
  rw [sliceTo,if_pos hb,bytes_append,List.take_left,decode_bytes]

/-- The longest beginning of `t` that `limit` bytes have room for. -/
structure LongestWithin (limit : ℕ) (t kept : List Char) : Prop where
  isPrefix : kept <+: t
  length_le : (bytes kept).length ≤ limit
  longest : ∀ p, p <+: t → (bytes p).length ≤ limit → p <+: kept

/-- A limit inside a text leaves a longest beginning, at most three bytes short of it. -/
theorem exists_longestWithin {t : List Char} {limit : ℕ} (h : limit ≤ (bytes t).length) :
    ∃ kept, LongestWithin limit t kept ∧ limit ≤ (bytes kept).length+3 := by
  induction t generalizing limit with
  | nil =>
    refine ⟨[],⟨List.prefix_refl _,Nat.zero_le _,fun p hp _ => hp⟩,?_⟩
    rw [bytes_nil,List.length_nil] at h
    omega
  | cons c t ih =>
    by_cases hlt : limit < (String.utf8EncodeChar c).length
    · refine ⟨[],⟨List.nil_prefix,Nat.zero_le _,fun p hp hlen => ?_⟩,?_⟩
      · rcases List.prefix_cons_iff.mp hp with rfl | ⟨p',rfl,-⟩
        · exact List.prefix_refl _
        · rw [bytes_cons,List.length_append] at hlen
          omega
      · obtain ⟨b,rest,he,-,hrest,-⟩ := utf8EncodeChar_eq_cons c
        rw [he,List.length_cons] at hlt
        omega
    · obtain ⟨j,rfl⟩ := Nat.exists_eq_add_of_le (Nat.le_of_not_lt hlt)
      rw [bytes_cons,List.length_append] at h
      have hj : j ≤ (bytes t).length := by omega
      obtain ⟨kept,hkept,hnear⟩ := ih hj
      refine ⟨c::kept,⟨(List.prefix_cons_inj c).mpr hkept.isPrefix,?_,fun p hp hlen => ?_⟩,?_⟩
      · have := hkept.length_le
        rw [bytes_cons,List.length_append]
        omega
      · rcases List.prefix_cons_iff.mp hp with rfl | ⟨p',rfl,hp'⟩
        · exact List.nil_prefix
        · rw [bytes_cons,List.length_append] at hlen
          exact (List.prefix_cons_inj c).mpr (hkept.longest p' hp' (by omega))
      · rw [bytes_cons,List.length_append]
        omega

end Kuadrat.Utf8
