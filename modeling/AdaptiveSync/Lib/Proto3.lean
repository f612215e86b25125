import Mathlib.Tactic.Common
import AdaptiveSync.Lib.BigEndian

/-!
# The proto3 wire format

A serialised message is a sequence of fields, each a tag (field number and wire type) and
a value. `encodeFields` and `decodeFields` are this layer, and invert each other
(`decodeFields_encodeFields`).

Above it lie the field kinds of a schema. For each there is a writer, which leaves out a
default value, and a reader, which looks up all values a field number has: of a singular
field the last one counts, the values of a repeated field are collected, and the bytes of
an embedded message are joined before it is read. `valuesAt` of what a writer wrote is
given by simp lemmas, so that a round trip of a message is proved by rewriting.

Readers differ in what they do with a field of a known number and an unexpected wire
type: a `strict` one fails, another one takes it for an unknown field. The size limit of
the format (2 GiB for a message) is not modelled, and numbers are not cut to 64 bits before
a reader cuts them to the size of its field.
-/

namespace Proto3

open BigEndian

/-! ### Varints -/

/-- A number, seven bits a byte, low bits first; the high bit of a byte says that more
follow. -/
def varint (n : ℕ) : List UInt8 :=
  if n < 128 then [UInt8.ofNat n] else UInt8.ofNat (n % 128 + 128) :: varint (n / 128)
termination_by n

/-- Read a varint: its value and the bytes after it. -/
def readVarint : List UInt8 → Option (ℕ × List UInt8)
  | [] => none
  | x :: xs =>
    if x.toNat < 128 then some (x.toNat, xs)
    else (readVarint xs).map fun r => (x.toNat - 128 + 128 * r.1, r.2)

theorem varint_ne_nil (n : ℕ) : varint n ≠ [] := by
  rw [varint]
  split <;> simp

@[simp] theorem readVarint_varint (n : ℕ) (rest : List UInt8) :
    readVarint (varint n ++ rest) = some (n, rest) := by
  induction n using Nat.strongRecOn with
  | ind n ih =>
    rw [varint]
    split
    · next h =>
      have hbyte : (UInt8.ofNat n).toNat = n := by
        rw [UInt8.toNat_ofNat']
        omega
      simp only [List.singleton_append, readVarint, hbyte, h, if_true]
    · next h =>
      -- the low seven bits, with the mark that more follow
      have hbyte : (UInt8.ofNat (n % 128 + 128)).toNat = n % 128 + 128 := by
        rw [UInt8.toNat_ofNat']
        omega
      simp only [List.cons_append, readVarint, hbyte, ih (n / 128) (by omega)]
      rw [if_neg (by omega)]
      simp only [Option.map_some, Option.some.injEq, Prod.mk.injEq, and_true]
      omega

/-! ### Fields -/

/-- A value with its wire type. -/
inductive Value where
  | varint (n : ℕ)
  | fixed64 (b : List UInt8)
  | len (b : List UInt8)
  | fixed32 (w : UInt32)
  deriving DecidableEq

/-- A field number and a value. -/
abbrev Field := ℕ × Value

/-- The four bytes of a word, low byte first. -/
def le32 (w : UInt32) : List UInt8 := (be 4 w.toNat).reverse

/-- The value of `fixed64` is kept as its eight bytes; no field writer makes one. -/
def Value.Ok : Value → Prop
  | .fixed64 b => b.length = 8
  | _ => True

def Value.wireType : Value → ℕ
  | .varint _ => 0
  | .fixed64 _ => 1
  | .len _ => 2
  | .fixed32 _ => 5

/-- A value without its tag. -/
def Value.encode : Value → List UInt8
  | .varint n => Proto3.varint n
  | .fixed64 b => b
  | .len b => Proto3.varint b.length ++ b
  | .fixed32 w => le32 w

/-- Read a value of a wire type. Groups are not read. -/
def readValue : ℕ → List UInt8 → Option (Value × List UInt8)
  | 0, bs => (readVarint bs).map fun r => (.varint r.1, r.2)
  | 1, bs => (readExact 8 bs).map fun r => (.fixed64 r.1, r.2)
  | 2, bs => (readVarint bs).bind fun r => (readExact r.1 r.2).map fun s => (.len s.1, s.2)
  | 5, bs => (readExact 4 bs).map fun r => (.fixed32 (UInt32.ofNat (ofBe r.1.reverse)), r.2)
  | _, _ => none

theorem readValue_encode {v : Value} (h : v.Ok) (rest : List UInt8) :
    readValue v.wireType (v.encode ++ rest) = some (v, rest) := by
  cases v with
  | varint n => simp [readValue, Value.wireType, Value.encode]
  | fixed64 b =>
    have hb : b.length = 8 := h
    simp [readValue, Value.wireType, Value.encode, readExact_append hb]
  | len b =>
    simp [readValue, Value.wireType, Value.encode, readExact_append]
  | fixed32 w =>
    have hlen : (le32 w).length = 4 := by simp [le32]
    have hval : ofBe (le32 w).reverse = w.toNat := by
      rw [le32, List.reverse_reverse]
      exact ofBe_be_of_lt w.toNat_lt
    simp [readValue, Value.wireType, Value.encode, readExact_append hlen, hval]

def encodeField (f : Field) : List UInt8 :=
  varint (f.1 * 8 + f.2.wireType) ++ f.2.encode

def encodeFields (fs : List Field) : List UInt8 := fs.flatMap encodeField

/-- Read one field. Number zero is illegal. -/
def readField (bs : List UInt8) : Option (Field × List UInt8) :=
  (readVarint bs).bind fun r =>
    if r.1 / 8 = 0 then none
    else (readValue (r.1 % 8) r.2).map fun v => ((r.1 / 8, v.1), v.2)

/-- Read fields to the end, at most so many. -/
def readFields : ℕ → List UInt8 → Option (List Field)
  | _, [] => some []
  | 0, _ :: _ => none
  | n + 1, b :: bs =>
    (readField (b :: bs)).bind fun r => (readFields n r.2).map fun fs => r.1 :: fs

/-- The fields of a message; every field takes at least one byte. -/
def decodeFields (bs : List UInt8) : Option (List Field) := readFields bs.length bs

/-- A field that can be written. -/
def Field.Ok (f : Field) : Prop := 0 < f.1 ∧ f.2.Ok

theorem readField_encodeField {f : Field} (h : Field.Ok f) (rest : List UInt8) :
    readField (encodeField f ++ rest) = some (f, rest) := by
  obtain ⟨num, v⟩ := f
  obtain ⟨hnum, hv⟩ := h
  -- the tag splits into number and wire type
  have hwt : v.wireType < 8 := by cases v <;> simp [Value.wireType]
  simp only at hnum hv
  rw [readField, encodeField, List.append_assoc, readVarint_varint]
  simp only [Option.bind_some]
  rw [show (num * 8 + v.wireType) / 8 = num by omega,
    show (num * 8 + v.wireType) % 8 = v.wireType by omega, if_neg (by omega),
    readValue_encode hv]
  rfl

theorem encodeField_ne_nil (f : Field) : encodeField f ≠ [] := by
  simp [encodeField, varint_ne_nil]

theorem readFields_encodeFields (fs : List Field) (hfs : ∀ f ∈ fs, Field.Ok f) :
    ∀ n, fs.length ≤ n → readFields n (encodeFields fs) = some fs := by
  induction fs with
  | nil => intro n _; cases n <;> rfl
  | cons f fs ih =>
    intro n hn
    obtain ⟨n, rfl⟩ : ∃ k, n = k + 1 := ⟨n - 1, by simp at hn; omega⟩
    obtain ⟨x, xs, hx⟩ : ∃ x xs, encodeFields (f :: fs) = x :: xs :=
      List.exists_cons_of_ne_nil (by simp [encodeFields, encodeField_ne_nil])
    -- the first field is read back, and the rest by induction
    have hread : readField (x :: xs) = some (f, encodeFields fs) := by
      rw [← hx]
      exact readField_encodeField (hfs f List.mem_cons_self) _
    rw [hx, readFields, hread, Option.bind_some,
      ih (fun g hg => hfs g (List.mem_cons_of_mem f hg)) n (by simp at hn; omega)]
    rfl

theorem length_le_encodeFields (fs : List Field) : fs.length ≤ (encodeFields fs).length := by
  induction fs with
  | nil => simp
  | cons f fs ih =>
    have := List.length_pos_iff.mpr (encodeField_ne_nil f)
    simp only [encodeFields, List.flatMap_cons, List.length_append, List.length_cons] at ih ⊢
    omega

/-- **The field layer round-trips.** -/
theorem decodeFields_encodeFields {fs : List Field} (h : ∀ f ∈ fs, Field.Ok f) :
    decodeFields (encodeFields fs) = some fs :=
  readFields_encodeFields fs h _ (length_le_encodeFields fs)

/-! ### Writers of the field kinds -/

/-- A singular number. -/
def putNat (num n : ℕ) : List Field := if n = 0 then [] else [(num, .varint n)]

/-- Singular bytes. -/
def putBytes (num : ℕ) (b : List UInt8) : List Field := if b = [] then [] else [(num, .len b)]

/-- A singular 32-bit float, by its bits. -/
def putFixed32 (num : ℕ) (w : UInt32) : List Field := if w = 0 then [] else [(num, .fixed32 w)]

/-- A repeated number, packed. -/
def putPacked (num : ℕ) (ns : List ℕ) : List Field :=
  if ns = [] then [] else [(num, .len (ns.flatMap varint))]

/-- A repeated embedded message. -/
def putMessages (num : ℕ) (bs : List (List UInt8)) : List Field := bs.map fun b => (num, .len b)

/-! ### Readers of the field kinds -/

/-- The values a field number has. -/
def valuesAt (num : ℕ) (fs : List Field) : List Value :=
  fs.filterMap fun f => if f.1 = num then some f.2 else none

section Readers

variable (strict : Bool)

/-- The values that `pick` can read. A strict reader insists on reading all. -/
def pickAll {α : Type} (pick : Value → Option α) (vs : List Value) : Option (List α) :=
  if strict && vs.any (fun v => (pick v).isNone) then none else some (vs.filterMap pick)

def Value.nat? : Value → Option ℕ
  | .varint n => some n
  | _ => none

def Value.bytes? : Value → Option (List UInt8)
  | .len b => some b
  | _ => none

def Value.word? : Value → Option UInt32
  | .fixed32 w => some w
  | _ => none

/-- Read varints to the end, at most so many. -/
def readVarints : ℕ → List UInt8 → Option (List ℕ)
  | _, [] => some []
  | 0, _ :: _ => none
  | n + 1, b :: bs =>
    (readVarint (b :: bs)).bind fun r => (readVarints n r.2).map fun ns => r.1 :: ns

/-- A value of a repeated number: packed, or one by itself. -/
def Value.nats? : Value → Option (List ℕ)
  | .varint n => some [n]
  | .len b => readVarints b.length b
  | _ => none

def getNat (vs : List Value) : Option ℕ :=
  (pickAll strict Value.nat? vs).map fun ns => ns.getLastD 0

def getBytes (vs : List Value) : Option (List UInt8) :=
  (pickAll strict Value.bytes? vs).map fun bs => bs.getLastD []

def getFixed32 (vs : List Value) : Option UInt32 :=
  (pickAll strict Value.word? vs).map fun ws => ws.getLastD 0

def getPacked (vs : List Value) : Option (List ℕ) :=
  (pickAll strict Value.nats? vs).map List.flatten

def getMessages (vs : List Value) : Option (List (List UInt8)) :=
  pickAll strict Value.bytes? vs

end Readers

/-! ### What the readers find -/

section Lookup

variable {num num' : ℕ} (strict : Bool)

@[simp] theorem valuesAt_append (num : ℕ) (fs gs : List Field) :
    valuesAt num (fs ++ gs) = valuesAt num fs ++ valuesAt num gs := List.filterMap_append

theorem valuesAt_of_forall {fs : List Field} (h : ∀ f ∈ fs, f.1 = num) :
    valuesAt num fs = fs.map Prod.snd := by
  unfold valuesAt
  rw [← List.filterMap_eq_map]
  exact List.filterMap_congr fun f hf => by simp [h f hf]

theorem valuesAt_of_ne {fs : List Field} (h : ∀ f ∈ fs, f.1 = num') (hne : num' ≠ num) :
    valuesAt num fs = [] := by
  unfold valuesAt
  exact List.filterMap_eq_nil_iff.mpr fun f hf => if_neg (by rw [h f hf]; exact hne)

theorem num_of_mem_putNat {n : ℕ} : ∀ f ∈ putNat num n, f.1 = num := by
  unfold putNat
  split <;> simp

theorem num_of_mem_putBytes {b : List UInt8} : ∀ f ∈ putBytes num b, f.1 = num := by
  unfold putBytes
  split <;> simp

theorem num_of_mem_putFixed32 {w : UInt32} : ∀ f ∈ putFixed32 num w, f.1 = num := by
  unfold putFixed32
  split <;> simp

theorem num_of_mem_putPacked {ns : List ℕ} : ∀ f ∈ putPacked num ns, f.1 = num := by
  unfold putPacked
  split <;> simp

theorem num_of_mem_putMessages {bs : List (List UInt8)} : ∀ f ∈ putMessages num bs, f.1 = num := by
  simp [putMessages]

@[simp] theorem valuesAt_putNat_of_ne {n : ℕ} (h : num' ≠ num) :
    valuesAt num (putNat num' n) = [] := valuesAt_of_ne num_of_mem_putNat h

@[simp] theorem valuesAt_putBytes_of_ne {b : List UInt8} (h : num' ≠ num) :
    valuesAt num (putBytes num' b) = [] := valuesAt_of_ne num_of_mem_putBytes h

@[simp] theorem valuesAt_putFixed32_of_ne {w : UInt32} (h : num' ≠ num) :
    valuesAt num (putFixed32 num' w) = [] := valuesAt_of_ne num_of_mem_putFixed32 h

@[simp] theorem valuesAt_putPacked_of_ne {ns : List ℕ} (h : num' ≠ num) :
    valuesAt num (putPacked num' ns) = [] := valuesAt_of_ne num_of_mem_putPacked h

@[simp] theorem valuesAt_putMessages_of_ne {bs : List (List UInt8)} (h : num' ≠ num) :
    valuesAt num (putMessages num' bs) = [] := valuesAt_of_ne num_of_mem_putMessages h

@[simp] theorem getNat_putNat (n : ℕ) : getNat strict (valuesAt num (putNat num n)) = some n := by
  rw [valuesAt_of_forall num_of_mem_putNat, putNat]
  split
  · next h => simp [getNat, pickAll, h]
  · simp [getNat, pickAll, Value.nat?]

@[simp] theorem getBytes_putBytes (b : List UInt8) :
    getBytes strict (valuesAt num (putBytes num b)) = some b := by
  rw [valuesAt_of_forall num_of_mem_putBytes, putBytes]
  split
  · next h => simp [getBytes, pickAll, h]
  · simp [getBytes, pickAll, Value.bytes?]

@[simp] theorem getFixed32_putFixed32 (w : UInt32) :
    getFixed32 strict (valuesAt num (putFixed32 num w)) = some w := by
  rw [valuesAt_of_forall num_of_mem_putFixed32, putFixed32]
  split
  · next h => simp [getFixed32, pickAll, h]
  · simp [getFixed32, pickAll, Value.word?]

theorem readVarints_flatMap (ns : List ℕ) :
    ∀ k, ns.length ≤ k → readVarints k (ns.flatMap varint) = some ns := by
  induction ns with
  | nil => intro k _; cases k <;> rfl
  | cons n ns ih =>
    intro k hk
    obtain ⟨k, rfl⟩ : ∃ j, k = j + 1 := ⟨k - 1, by simp at hk; omega⟩
    obtain ⟨x, xs, hx⟩ : ∃ x xs, (n :: ns).flatMap varint = x :: xs :=
      List.exists_cons_of_ne_nil (by simp [varint_ne_nil])
    have hread : readVarint (x :: xs) = some (n, ns.flatMap varint) := by
      rw [← hx, List.flatMap_cons, readVarint_varint]
    rw [hx, readVarints, hread, Option.bind_some, ih k (by simp at hk; omega)]
    rfl

theorem length_le_flatMap_varint (ns : List ℕ) : ns.length ≤ (ns.flatMap varint).length := by
  induction ns with
  | nil => simp
  | cons n ns ih =>
    have := List.length_pos_iff.mpr (varint_ne_nil n)
    simp only [List.flatMap_cons, List.length_append, List.length_cons]
    omega

@[simp] theorem getPacked_putPacked (ns : List ℕ) :
    getPacked strict (valuesAt num (putPacked num ns)) = some ns := by
  rw [valuesAt_of_forall num_of_mem_putPacked, putPacked]
  split
  · next h => simp [getPacked, pickAll, h]
  · -- the packed numbers are read to their end
    have hread : Value.nats? (.len (ns.flatMap varint)) = some ns :=
      readVarints_flatMap ns _ (length_le_flatMap_varint ns)
    simp [getPacked, pickAll, hread]

@[simp] theorem getMessages_putMessages (bs : List (List UInt8)) :
    getMessages strict (valuesAt num (putMessages num bs)) = some bs := by
  rw [valuesAt_of_forall num_of_mem_putMessages, putMessages, List.map_map]
  -- each embedded message is one length-delimited value
  have hpick : ∀ bs : List (List UInt8),
      (bs.map (Prod.snd ∘ fun b => (num, Value.len b))).filterMap Value.bytes? = bs := by
    intro bs
    rw [List.filterMap_map]
    exact (List.filterMap_congr fun b _ => rfl).trans List.filterMap_some
  simp [getMessages, pickAll, Value.bytes?, hpick]

end Lookup

/-! ### Messages -/

/-- All fields can be written. -/
def Writable (fs : List Field) : Prop := ∀ f ∈ fs, Field.Ok f

section Writable

variable {num : ℕ}

@[simp] theorem writable_append {fs gs : List Field} :
    Writable (fs ++ gs) ↔ Writable fs ∧ Writable gs := List.forall_mem_append

@[simp] theorem writable_putNat (n : ℕ) (h : 0 < num) : Writable (putNat num n) := by
  unfold putNat
  split <;> simp [Writable, Field.Ok, Value.Ok, h]

@[simp] theorem writable_putBytes (b : List UInt8) (h : 0 < num) : Writable (putBytes num b) := by
  unfold putBytes
  split <;> simp [Writable, Field.Ok, Value.Ok, h]

@[simp] theorem writable_putFixed32 (w : UInt32) (h : 0 < num) : Writable (putFixed32 num w) := by
  unfold putFixed32
  split <;> simp [Writable, Field.Ok, Value.Ok, h]

@[simp] theorem writable_putPacked (ns : List ℕ) (h : 0 < num) : Writable (putPacked num ns) := by
  unfold putPacked
  split <;> simp [Writable, Field.Ok, Value.Ok, h]

@[simp] theorem writable_putMessages (bs : List (List UInt8)) (h : 0 < num) :
    Writable (putMessages num bs) := by
  simp [putMessages, Writable, Field.Ok, Value.Ok, h]

end Writable

/-- How a message is written as fields and read from them. -/
structure Schema (α : Type) where
  fields : α → List Field
  ofFields : List Field → Option α
  writable : ∀ m, Writable (fields m)
  ofFields_fields : ∀ m, ofFields (fields m) = some m

namespace Schema

variable {α : Type} (S : Schema α)

def encode (m : α) : List UInt8 := encodeFields (S.fields m)

def decode (bs : List UInt8) : Option α := (decodeFields bs).bind S.ofFields

/-- **A message round-trips.** -/
@[simp] theorem decode_encode (m : α) : S.decode (S.encode m) = some m := by
  rw [decode, encode, decodeFields_encodeFields (S.writable m), Option.bind_some,
    S.ofFields_fields]

end Schema

/-! ### How long an encoding is -/

theorem length_varint_le (k : ℕ) : ∀ {n : ℕ}, n < 128 ^ (k + 1) → (varint n).length ≤ k + 1 := by
  induction k with
  | zero =>
    intro n hn
    rw [varint, if_pos (by simpa using hn)]
    simp
  | succ k ih =>
    intro n hn
    rw [varint]
    split
    · simp
    · have hdiv : n / 128 < 128 ^ (k + 1) := by
        rw [pow_succ] at hn
        omega
      simpa using ih hdiv

/-- A word of 64 bits takes at most ten bytes. -/
theorem length_varint_le_ten {n : ℕ} (h : n < 2 ^ 64) : (varint n).length ≤ 10 :=
  length_varint_le 9 (h.trans (by decide))

theorem length_putNat_le {num n : ℕ} (hnum : num < 2 ^ 60) (hn : n < 2 ^ 64) :
    (encodeFields (putNat num n)).length ≤ 20 := by
  unfold putNat
  split
  · simp [encodeFields]
  · have h₁ : (varint (num * 8 + 0)).length ≤ 10 := length_varint_le_ten (by omega)
    have h₂ := length_varint_le_ten hn
    simp [encodeFields, encodeField, Value.encode, Value.wireType] at *
    omega

theorem length_putBytes_le {num : ℕ} {b : List UInt8} (hnum : num < 2 ^ 60)
    (hb : b.length < 2 ^ 64) : (encodeFields (putBytes num b)).length ≤ 20 + b.length := by
  unfold putBytes
  split
  · simp [encodeFields]
  · have h₁ : (varint (num * 8 + 2)).length ≤ 10 := length_varint_le_ten (by omega)
    have h₂ := length_varint_le_ten hb
    simp [encodeFields, encodeField, Value.encode, Value.wireType] at *
    omega

theorem encodeFields_append (fs gs : List Field) :
    encodeFields (fs ++ gs) = encodeFields fs ++ encodeFields gs := List.flatMap_append

@[simp] theorem mapM_some {α : Type} (l : List α) : (l.mapM fun x => some x) = some l := by
  induction l with
  | nil => rfl
  | cons a l ih => simp [ih]

/-! ### Strings -/

/-- The bytes of a string. -/
def utf8 (s : String) : List UInt8 := s.toUTF8.data.toList

/-- The string with the given bytes, if they are well formed. -/
def ofUtf8 (b : List UInt8) : Option String := String.fromUTF8? ⟨b.toArray⟩

@[simp] theorem ofUtf8_utf8 (s : String) : ofUtf8 (utf8 s) = some s := by
  have hbytes : (⟨(utf8 s).toArray⟩ : ByteArray) = s.toUTF8 := by simp [utf8]
  rw [ofUtf8, hbytes, String.fromUTF8?,
    dif_pos (show s.toUTF8.IsValidUTF8 from s.isValidUTF8)]
  rfl

theorem length_utf8_le (s : String) : (utf8 s).length ≤ 4 * s.toList.length := by
  have h : utf8 s = s.toList.flatMap String.utf8EncodeChar := by
    change s.toByteArray.data.toList = _
    rw [← String.utf8Encode_toList]
    simp [List.utf8Encode]
  rw [h]
  induction s.toList with
  | nil => simp
  | cons c cs ih =>
    have hc : (String.utf8EncodeChar c).length ≤ 4 := by
      rw [String.length_utf8EncodeChar]
      exact c.utf8Size_le_four
    rw [List.flatMap_cons, List.length_append, List.length_cons]
    omega

end Proto3
