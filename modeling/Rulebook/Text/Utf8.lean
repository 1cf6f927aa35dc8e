/-
UTF-8. Decoding stops at the first sequence that is not well formed and says where it starts, how many bytes belong to
it and what is wrong with it; encoding stops at the first run of surrogates, which have no UTF-8 form.

Messages show a single byte or code point at fault; several are named by the places of the first and the last.
-/
import Rulebook.Text.Quoted

namespace Rulebook

/-- the content of a file -/
abbrev Bytes := List UInt8

namespace Utf8

def width (c : CodePoint) : Nat :=
  if c.val < 0x80 then 1 else if c.val < 0x800 then 2 else if c.val < 0x10000 then 3 else 4

def size (t : Text) : Nat :=
  t.foldl (fun n c => n + width c) 0

/-- what is wrong with a sequence of bytes -/
inductive DecodeReason where
  | start
  | continuation
  | truncated
  deriving DecidableEq, Repr

/-- a malformed sequence: its first byte, where it stands, and how many bytes belong to it -/
structure DecodeFault where
  first : UInt8
  offset : Nat
  width : Nat
  reason : DecodeReason
  deriving DecidableEq, Repr

/-- a run of surrogates: the first of them, where it stands, and how many there are -/
structure EncodeFault where
  first : CodePoint
  offset : Nat
  width : Nat
  deriving DecidableEq, Repr

def DecodeReason.message : DecodeReason → Text
  | .start => "invalid start byte"
  | .continuation => "invalid continuation byte"
  | .truncated => "unexpected end of data"

/-- the shape of a sequence by its first byte: how many bytes follow, the range of the first of them, the bits -/
def leadShape? (b : UInt8) : Option (Nat × Nat × Nat × Nat) :=
  let n := b.toNat
  if 0xC2 ≤ n ∧ n ≤ 0xDF then some (1, 0x80, 0xBF, n - 0xC0)
  else if n = 0xE0 then some (2, 0xA0, 0xBF, 0)
  else if n = 0xED then some (2, 0x80, 0x9F, 0xD)
  else if 0xE1 ≤ n ∧ n ≤ 0xEF then some (2, 0x80, 0xBF, n - 0xE0)
  else if n = 0xF0 then some (3, 0x90, 0xBF, 0)
  else if 0xF1 ≤ n ∧ n ≤ 0xF3 then some (3, 0x80, 0xBF, n - 0xF0)
  else if n = 0xF4 then some (3, 0x80, 0x8F, 4)
  else none

/-- read `count` continuation bytes, the first of them within the given range, onto the bits read so far; on failure,
how many were fine and what is wrong with the next -/
def continuation : (count low high bits : Nat) → Bytes → Except (Nat × DecodeReason) (Nat × Bytes)
  | 0, _, _, bits, rest => .ok (bits, rest)
  | _ + 1, _, _, _, [] => .error (0, .truncated)
  | count + 1, low, high, bits, b :: rest =>
    if low ≤ b.toNat ∧ b.toNat ≤ high then
      match continuation count 0x80 0xBF (64 * bits + (b.toNat - 0x80)) rest with
      | .ok r => .ok r
      | .error (fine, reason) => .error (fine + 1, reason)
    else .error (0, .continuation)

/-- one code point from the front of a non-empty sequence, how many bytes it takes up, and the bytes behind it -/
def decodeOne (offset : Nat) (b : UInt8) (rest : Bytes) : Except DecodeFault (CodePoint × Nat × Bytes) :=
  if b.toNat < 0x80 then .ok (⟨b.toNat, by have := b.toNat_lt; omega⟩, 1, rest)
  else match leadShape? b with
    | none => .error ⟨b, offset, 1, .start⟩
    | some (count, low, high, bits) =>
      match continuation count low high bits rest with
      | .error (fine, reason) => .error ⟨b, offset, fine + 1, reason⟩
      | .ok (n, rest) =>
        match CodePoint.ofNat? n with
        | some c => .ok (c, count + 1, rest)
        | none => .error ⟨b, offset, 1, .start⟩

/-- an ASCII code point is a byte of its own -/
theorem decodeOne_ascii (offset : Nat) {c : CodePoint} (h : c.val < 0x80) (rest : Bytes) :
    decodeOne offset c.val.toUInt8 rest = .ok (c, 1, rest) := by
  have hbyte : c.val.toUInt8.toNat = c.val := by
    rw [Nat.toUInt8, UInt8.toNat_ofNat']
    omega
  rw [decodeOne, if_pos (by rw [hbyte]; exact h)]
  simp only [hbyte]

/-- reading continuation bytes never lengthens the rest -/
theorem length_of_continuation {count low high bits : Nat} {s : Bytes} {r : Nat × Bytes}
    (h : continuation count low high bits s = .ok r) : r.2.length ≤ s.length := by
  induction count generalizing low high bits s with
  | zero => cases s <;> · simp only [continuation, Except.ok.injEq] at h; subst h; simp
  | succ count ih =>
    cases s with
    | nil => simp [continuation] at h
    | cons b rest =>
      simp only [continuation] at h
      split at h
      · split at h
        · next r' hr =>
          cases h
          have := ih hr
          simp only [List.length_cons]
          omega
        · simp at h
      · simp at h

/-- each code point takes at least one byte -/
theorem length_of_decodeOne {offset : Nat} {b : UInt8} {rest : Bytes} {r : CodePoint × Nat × Bytes}
    (h : decodeOne offset b rest = .ok r) : r.2.2.length ≤ rest.length := by
  unfold decodeOne at h
  split at h
  · cases h; simp
  · split at h
    · simp at h
    · split at h
      · simp at h
      · next hc =>
        split at h
        · cases h
          have shorter := length_of_continuation hc
          exact shorter
        · simp at h

/-- the code points of a sequence of bytes that starts at `offset` -/
def decodeFrom (offset : Nat) : Bytes → Except DecodeFault Text
  | [] => .ok []
  | b :: rest =>
    match _h : decodeOne offset b rest with
    | .error fault => .error fault
    | .ok (c, width, more) =>
      match decodeFrom (offset + width) more with
      | .error fault => .error fault
      | .ok t => .ok (c :: t)
termination_by s => s.length
decreasing_by
  have shorter : more.length ≤ rest.length := length_of_decodeOne _h
  simp only [List.length_cons]
  omega

def decode (s : Bytes) : Except DecodeFault Text :=
  decodeFrom 0 s

theorem decodeFrom_ascii (offset : Nat) {t : Text} (h : ∀ c ∈ t, c.val < 0x80) :
    decodeFrom offset (t.map fun c => c.val.toUInt8) = .ok t := by
  induction t generalizing offset with
  | nil => rw [List.map_nil, decodeFrom]
  | cons c t ih =>
    obtain ⟨hc, ht⟩ := List.forall_mem_cons.1 h
    rw [List.map_cons, decodeFrom]
    split
    · next heq => cases (decodeOne_ascii offset hc _).symm.trans heq
    · next heq =>
      cases (decodeOne_ascii offset hc _).symm.trans heq
      rw [ih _ ht]

/-- ASCII text is decoded from the bytes of its code points -/
theorem decode_ascii {t : Text} (h : ∀ c ∈ t, c.val < 0x80) : decode (t.map fun c => c.val.toUInt8) = .ok t :=
  decodeFrom_ascii 0 h

def encodePoint (c : CodePoint) : Bytes :=
  let n := c.val
  if n < 0x80 then [n.toUInt8]
  else if n < 0x800 then [(0xC0 + n / 64).toUInt8, (0x80 + n % 64).toUInt8]
  else if n < 0x10000 then
    [(0xE0 + n / 4096).toUInt8, (0x80 + n / 64 % 64).toUInt8, (0x80 + n % 64).toUInt8]
  else
    [(0xF0 + n / 262144).toUInt8, (0x80 + n / 4096 % 64).toUInt8, (0x80 + n / 64 % 64).toUInt8,
      (0x80 + n % 64).toUInt8]

def surrogates? (t : Text) : Option EncodeFault :=
  match t.dropWhile (fun c => !c.isSurrogate) with
  | [] => none
  | c :: rest =>
    some ⟨c, (t.takeWhile (fun c => !c.isSurrogate)).length, 1 + (rest.takeWhile CodePoint.isSurrogate).length⟩

def encode (t : Text) : Except EncodeFault Bytes :=
  match surrogates? t with
  | some fault => .error fault
  | none => .ok (t.flatMap encodePoint)

/-! ## Faults in words -/

def stretch (offset width : Nat) : Text :=
  Text.ofNat offset ++ "-" ++ Text.ofNat (offset + width - 1)

def DecodeFault.report (f : DecodeFault) : Text :=
  let what : Text :=
    if f.width = 1 then "byte 0x" ++ Text.hex 2 f.first.toNat ++ " in position " ++ Text.ofNat f.offset
    else "bytes in position " ++ stretch f.offset f.width
  "'utf-8' codec can't decode " ++ what ++ ": " ++ f.reason.message

def EncodeFault.report (f : EncodeFault) : Text :=
  let what : Text :=
    if f.width = 1 then "character " ++ Text.quoted [f.first] ++ " in position " ++ Text.ofNat f.offset
    else "characters in position " ++ stretch f.offset f.width
  "'utf-8' codec can't encode " ++ what ++ ": surrogates not allowed"

end Utf8

end Rulebook
