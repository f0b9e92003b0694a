import SolanaAmm.Lib.Word
import Std.Data.TreeMap

/-!
# Common — the types both programs declare

Both programs declare the same newtypes around `u64` for token amounts
and slots, and key their maps by public keys.
-/

namespace SolanaAmm

/-- A public key: 32 bytes, ordered as a big-endian number. -/
structure Pubkey where
  bytes : Word 256
deriving DecidableEq

namespace Pubkey

/-- `Pubkey::default()`: the all-zero key marks what is not initialised. -/
instance : Inhabited Pubkey := ⟨⟨0⟩⟩

instance (n : ℕ) : OfNat Pubkey n := ⟨⟨OfNat.ofNat n⟩⟩

@[ext] theorem ext {a b : Pubkey} (h : a.bytes.val = b.bytes.val) : a = b := by
  cases a; cases b; congr; exact Word.ext h

instance : Ord Pubkey := ⟨fun a b => compare a.bytes.val b.bytes.val⟩

instance : Std.TransCmp (compare : Pubkey → Pubkey → Ordering) where
  eq_swap := by
    intro a b
    exact (Std.OrientedCmp.eq_swap : compare a.bytes.val b.bytes.val = _)
  isLE_trans := by
    intro a b c (hab : (compare a.bytes.val b.bytes.val).isLE = true)
      (hbc : (compare b.bytes.val c.bytes.val).isLE = true)
    have h := Std.TransCmp.isLE_trans hab hbc
    exact h

instance : Std.LawfulEqCmp (compare : Pubkey → Pubkey → Ordering) where
  compare_self := by
    intro a
    exact (Std.ReflCmp.compare_self : compare a.bytes.val a.bytes.val = .eq)
  eq_of_compare := by
    intro a b (h : compare a.bytes.val b.bytes.val = .eq)
    exact ext (Std.LawfulEqCmp.eq_of_compare h)

/-! ## Display -/

def base58Alphabet : List Char :=
  "123456789ABCDEFGHJKLMNPQRSTUVWXYZabcdefghijkmnopqrstuvwxyz".toList

/-- The base-58 digits of a number, most significant first. -/
def base58Digits : ℕ → ℕ → List Char
  | 0, _ => []
  | fuel + 1, n =>
      if n = 0 then []
      else base58Digits fuel (n / 58) ++ [base58Alphabet.getD (n % 58) '1']

/-- Bytes before the first one that is not zero, of the 32. -/
def leadingZeroBytes : ℕ → ℕ → ℕ
  | 0, _ => 0
  | fuel + 1, n => if n < 256 ^ fuel then 1 + leadingZeroBytes fuel n else 0

/-- How a key is printed: base 58, a `1` for each leading zero byte. -/
def display (k : Pubkey) : String :=
  String.ofList (List.replicate (leadingZeroBytes 32 k.bytes.val) '1' ++
    base58Digits 44 k.bytes.val)

end Pubkey

/-- `TokenAmount { amount: u64 }`. -/
abbrev TokenAmount := U64

/-- `Slot { slot: u64 }`. -/
abbrev Slot := U64

/-- `BTreeMap<Pubkey, _>`. -/
abbrev BTreeMap (α : Type) := Std.TreeMap Pubkey α

end SolanaAmm
