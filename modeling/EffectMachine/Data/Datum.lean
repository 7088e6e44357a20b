/-!
# Payload data

The data that scripted effects compute with: null, truth values, 64-bit integers, texts and
lists of such. Equality is decidable and structural; `Datum.text` is the plain text that
concatenation and messages use.
-/

namespace EffectMachine

/-- A payload: what a scripted effect succeeds with, logs and stores. -/
inductive Datum where
  | null
  | flag (b : Bool)
  | int (n : Int64)
  | text (s : String)
  | list (items : List Datum)
deriving Inhabited

namespace Datum

/-! ### Equality -/

mutual

/-- Equality of payloads is structural. -/
def decEq : (a b : Datum) → Decidable (a = b)
  | .null, b => match b with
    | .null => isTrue rfl
    | .flag _ | .int _ | .text _ | .list _ => isFalse nofun
  | .flag x, b => match b with
    | .flag y => if h : x = y then isTrue (h ▸ rfl) else isFalse fun e ↦ h (Datum.flag.inj e)
    | .null | .int _ | .text _ | .list _ => isFalse nofun
  | .int x, b => match b with
    | .int y => if h : x = y then isTrue (h ▸ rfl) else isFalse fun e ↦ h (Datum.int.inj e)
    | .null | .flag _ | .text _ | .list _ => isFalse nofun
  | .text x, b => match b with
    | .text y => if h : x = y then isTrue (h ▸ rfl) else isFalse fun e ↦ h (Datum.text.inj e)
    | .null | .flag _ | .int _ | .list _ => isFalse nofun
  | .list xs, b => match b with
    | .list ys => match decEqList xs ys with
      | isTrue h => isTrue (h ▸ rfl)
      | isFalse h => isFalse fun e ↦ h (Datum.list.inj e)
    | .null | .flag _ | .int _ | .text _ => isFalse nofun

/-- Lists of payloads are compared element by element. -/
def decEqList : (xs ys : List Datum) → Decidable (xs = ys)
  | [], [] => isTrue rfl
  | [], _ :: _ => isFalse nofun
  | _ :: _, [] => isFalse nofun
  | x :: xs, y :: ys => match decEq x y, decEqList xs ys with
    | isTrue h, isTrue hs => isTrue (h ▸ hs ▸ rfl)
    | isFalse h, _ => isFalse fun e ↦ h (List.cons.inj e).1
    | _, isFalse hs => isFalse fun e ↦ hs (List.cons.inj e).2

end

instance : DecidableEq Datum := decEq

/-! ### Text -/

mutual

/-- The plain text of a payload: texts stand for themselves, lists are bracketed and separated
by bare commas. -/
def plain : Datum → String
  | .null => "null"
  | .flag b => if b then "true" else "false"
  | .int n => toString n.toInt
  | .text s => s
  | .list items => "[" ++ ",".intercalate (plainAll items) ++ "]"

/-- The plain texts of the elements of a list. -/
def plainAll : List Datum → List String
  | [] => []
  | d :: ds => d.plain :: plainAll ds

end

theorem plainAll_eq_map (ds : List Datum) : plainAll ds = ds.map plain := by
  induction ds with
  | nil => rfl
  | cons d ds ih => rw [plainAll, ih, List.map_cons]

end Datum

end EffectMachine
