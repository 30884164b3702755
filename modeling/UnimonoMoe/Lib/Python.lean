import Mathlib.Data.Int.Notation
import Mathlib.Data.List.Nodup
import Mathlib.Data.Nat.Notation

/-!
# Python's strings, integers and dictionaries

The parts of Python that configuration code is written with, on lists of characters:
`str.isspace`, `str.strip`, `str.split`, `int` and `dict`.

`int` accepts what Python accepts: surrounding white space, a sign, decimal digits of any script,
and single underscores between digits.  A string of more than `4300` digits raises, as Python's
default limit has it.  A `Dict` keeps one value per key, in order of first insertion; what a lookup
finds is what the items contain (`Dict.get?_eq_some_iff`).

Code that raises is written in `Except`: `raiseIf` is an `if` that raises, `orRaise` an expression
that may.  A block that returns has passed all of its checks (`raiseIf_bind_eq_ok`,
`orRaise_bind_eq_ok`).
-/

namespace Python

/-! ## Strings -/

/-- `str.isspace` of one character. -/
def isSpace (c : Char) : Bool :=
  let n := c.toNat
  (9 ≤ n && n ≤ 13) || (28 ≤ n && n ≤ 32) || n == 0x85 || n == 0xA0 || n == 0x1680 ||
    (0x2000 ≤ n && n ≤ 0x200A) || n == 0x2028 || n == 0x2029 || n == 0x202F || n == 0x205F ||
    n == 0x3000

/-- Drop the characters that satisfy `p` from both ends. -/
def stripWhile (p : Char → Bool) (s : List Char) : List Char :=
  ((s.dropWhile p).reverse.dropWhile p).reverse

/-- `s.strip()`. -/
def strip (s : List Char) : List Char := stripWhile isSpace s

/-- `s.split(sep)` for a one-character separator. -/
def split (sep : Char) : List Char → List (List Char)
  | [] => [[]]
  | c :: cs =>
    if c = sep then [] :: split sep cs
    else match split sep cs with
      | [] => [[c]]
      | w :: ws => (c :: w) :: ws

/-! ## Integers -/

/-- The code points of the decimal zeros; nine further digits follow each of them. -/
def decimalZeros : List ℕ :=
  [0x30, 0x660, 0x6F0, 0x7C0, 0x966, 0x9E6, 0xA66, 0xAE6, 0xB66, 0xBE6, 0xC66, 0xCE6, 0xD66,
    0xDE6, 0xE50, 0xED0, 0xF20, 0x1040, 0x1090, 0x17E0, 0x1810, 0x1946, 0x19D0, 0x1A80, 0x1A90,
    0x1B50, 0x1BB0, 0x1C40, 0x1C50, 0xA620, 0xA8D0, 0xA900, 0xA9D0, 0xA9F0, 0xAA50, 0xABF0, 0xFF10,
    0x104A0, 0x10D30, 0x11066, 0x110F0, 0x11136, 0x111D0, 0x112F0, 0x11450, 0x114D0, 0x11650,
    0x116C0, 0x11730, 0x118E0, 0x11950, 0x11C50, 0x11D50, 0x11DA0, 0x16A60, 0x16AC0, 0x16B50,
    0x1D7CE, 0x1D7D8, 0x1D7E2, 0x1D7EC, 0x1D7F6, 0x1E140, 0x1E2F0, 0x1E950, 0x1FBF0]

/-- The value of a decimal digit. -/
def digitValue (c : Char) : Option ℕ :=
  (decimalZeros.find? fun z => z ≤ c.toNat && c.toNat < z + 10).map (c.toNat - ·)

/-- A nonempty run of digits with single underscores between them. -/
def digits : List Char → Option (List ℕ)
  | [] => none
  | [c] => (digitValue c).map fun d => [d]
  | c :: '_' :: cs => (digitValue c).bind fun d => (digits cs).map (d :: ·)
  | c :: cs => (digitValue c).bind fun d => (digits cs).map (d :: ·)

/-- `sys.int_info.default_max_str_digits`. -/
def maxStrDigits : ℕ := 4300

/-- An unsigned decimal number. -/
def natural (s : List Char) : Option ℕ :=
  (digits s).bind fun ds =>
    if ds.length ≤ maxStrDigits then some (ds.foldl (fun n d => 10 * n + d) 0) else none

/-- `int(s)`; `none` is the `ValueError`.  The four separators `0x1C, ..., 0x1F` are white space
to `str.strip` but not here. -/
def int (s : List Char) : Option ℤ :=
  match stripWhile (fun c => isSpace c && !(28 ≤ c.toNat && c.toNat ≤ 31)) s with
  | '-' :: cs => (natural cs).map fun n => -(n : ℤ)
  | '+' :: cs => (natural cs).map fun n => (n : ℤ)
  | cs => (natural cs).map fun n => (n : ℤ)

example : int " -1_024 ".toList = some (-1024) ∧ int "1__0".toList = none := by decide

/-! ## Exceptions -/

section Exceptions

variable {ε α β : Type}

/-- `if p: raise e`. -/
def raiseIf (p : Prop) [Decidable p] (e : ε) : Except ε Unit := if p then .error e else .ok ()

/-- The value of an expression that raises `e` when it has none. -/
def orRaise (x : Option α) (e : ε) : Except ε α :=
  match x with
  | some a => .ok a
  | none => .error e

/-- A block with a check returns when the check passes and the rest returns. -/
lemma raiseIf_bind_eq_ok {p : Prop} [Decidable p] {e : ε} {f : Unit → Except ε β} {b : β} :
    (raiseIf p e >>= f) = .ok b ↔ ¬ p ∧ f () = .ok b := by
  unfold raiseIf
  split_ifs with h
  · exact iff_of_false nofun fun hok => hok.1 h
  · exact (and_iff_right h).symm

/-- A block with an expression that may raise returns when it has a value. -/
lemma orRaise_bind_eq_ok {x : Option α} {e : ε} {f : α → Except ε β} {b : β} :
    (orRaise x e >>= f) = .ok b ↔ ∃ a, x = some a ∧ f a = .ok b := by
  cases x with
  | none => exact iff_of_false nofun nofun
  | some a => exact ⟨fun h => ⟨a, rfl, h⟩, fun ⟨_, heq, h⟩ => Option.some.inj heq ▸ h⟩

/-- An error comes from this check or, behind it, from a later one. -/
lemma raiseIf_bind_eq_error {p : Prop} [Decidable p] {e e' : ε} {f : Unit → Except ε β} :
    (raiseIf p e >>= f) = .error e' ↔ p ∧ e = e' ∨ ¬ p ∧ f () = .error e' := by
  unfold raiseIf
  split_ifs with h
  · exact ⟨fun he => .inl ⟨h, Except.error.inj he⟩,
      fun he => congrArg _ (he.resolve_right fun hf => hf.1 h).2⟩
  · exact ⟨fun he => .inr ⟨h, he⟩, fun he => (he.resolve_left fun hp => h hp.1).2⟩

/-- The same for an expression that raises. -/
lemma orRaise_bind_eq_error {x : Option α} {e e' : ε} {f : α → Except ε β} :
    (orRaise x e >>= f) = .error e' ↔ x = none ∧ e = e' ∨ ∃ a, x = some a ∧ f a = .error e' := by
  cases x with
  | none =>
    refine ⟨fun he => .inl ⟨rfl, Except.error.inj he⟩, ?_⟩
    rintro (⟨-, rfl⟩ | ⟨a, ha, -⟩)
    · rfl
    · cases ha
  | some a =>
    refine ⟨fun he => .inr ⟨a, rfl, he⟩, ?_⟩
    rintro (⟨h, -⟩ | ⟨a', ha, he⟩)
    · cases h
    · exact Option.some.inj ha ▸ he

end Exceptions

/-! ## Dictionaries -/

/-- A dictionary: items in order of first insertion, one for each key. -/
structure Dict (κ υ : Type*) where
  items : List (κ × υ)
  nodup_keys : (items.map Prod.fst).Nodup

namespace Dict

variable {κ υ : Type*}

/-- `{}`. -/
def empty : Dict κ υ := ⟨[], List.nodup_nil⟩

/-- `{k: v for k, v in d.items() if p(k)}`. -/
def filter (d : Dict κ υ) (p : κ → Bool) : Dict κ υ where
  items := d.items.filter fun kv => p kv.1
  nodup_keys := (List.filter_sublist.map Prod.fst).nodup d.nodup_keys

/-- `{k: f(v) for k, v in d.items()}`. -/
def mapValues (d : Dict κ υ) (f : υ → υ) : Dict κ υ where
  items := d.items.map fun kv => (kv.1, f kv.2)
  nodup_keys := by
    rw [List.map_map]
    exact d.nodup_keys

/-- `d.values()`. -/
def values (d : Dict κ υ) : List υ := d.items.map Prod.snd

variable [DecidableEq κ]

/-- `d[k] = v`. -/
def set (d : Dict κ υ) (k : κ) (v : υ) : Dict κ υ :=
  if h : k ∈ d.items.map Prod.fst then
    { items := d.items.map fun kv => if kv.1 = k then (kv.1, v) else kv
      nodup_keys := by
        have hkeys : (d.items.map fun kv => if kv.1 = k then (kv.1, v) else kv).map Prod.fst =
            d.items.map Prod.fst := by
          rw [List.map_map]
          refine List.map_congr_left fun kv _ => ?_
          simp only [Function.comp]
          split_ifs <;> rfl
        rw [hkeys]
        exact d.nodup_keys }
  else
    { items := d.items ++ [(k, v)]
      nodup_keys := by
        rw [List.map_append, List.nodup_append]
        refine ⟨d.nodup_keys, List.nodup_singleton k, fun a ha b hb => ?_⟩
        obtain rfl : b = k := by simpa using hb
        exact fun heq => h (heq ▸ ha) }

/-- `d.get(k)`. -/
def get? (d : Dict κ υ) (k : κ) : Option υ :=
  (d.items.find? fun kv => kv.1 = k).map Prod.snd

variable {d : Dict κ υ} {k : κ} {v : υ}

/-- A lookup finds what the items contain. -/
theorem get?_eq_some_iff : d.get? k = some v ↔ (k, v) ∈ d.items := by
  unfold get?
  rw [Option.map_eq_some_iff]
  constructor
  · rintro ⟨⟨k', v'⟩, hfind, rfl⟩
    obtain rfl : k' = k := by simpa using List.find?_some hfind
    exact List.mem_of_find?_eq_some hfind
  · intro hmem
    have hkeys := d.nodup_keys
    generalize d.items = items at hmem hkeys
    induction items with
    | nil => cases hmem
    | cons kv items ih =>
      rw [List.map_cons, List.nodup_cons] at hkeys
      rw [List.find?_cons]
      rcases List.mem_cons.mp hmem with rfl | htail
      · exact ⟨(k, v), by simp, rfl⟩
      · have hne : kv.1 ≠ k := fun heq =>
          hkeys.1 (heq ▸ List.mem_map.mpr ⟨(k, v), htail, rfl⟩)
        rw [decide_eq_false hne]
        exact ih htail hkeys.2

end Dict

end Python
