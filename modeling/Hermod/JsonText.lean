import Hermod.TextLines

/-!
JSON values and the text they are written as, without any blanks between the tokens.
Strings are quoted, with quotation marks, backslashes and control characters escaped, so
whatever a value contains its text is a single line.
-/
namespace Hermod.JsonText

open TextLines (Text)

/-- A number, by the text it is written as. -/
structure Number where
  text : Text
  digits : ∀ c ∈ text, c ∈ "0123456789+-.eE".toList
  deriving DecidableEq

inductive Json
  | null
  | bool (b : Bool)
  | number (n : Number)
  | string (s : Text)
  | array (items : List Json)
  | object (fields : List (Text × Json))

def escapeChar (c : Char) : Text :=
  if c = '"' then ['\\', '"']
  else if c = '\\' then ['\\', '\\']
  else if c = Char.ofNat 8 then ['\\', 'b']
  else if c = Char.ofNat 12 then ['\\', 'f']
  else if c = '\n' then ['\\', 'n']
  else if c = '\r' then ['\\', 'r']
  else if c = '\t' then ['\\', 't']
  else if c.toNat < 32 then
    ['\\', 'u', '0', '0', Nat.digitChar (c.toNat / 16), Nat.digitChar (c.toNat % 16)]
  else [c]

def quote (s : Text) : Text := '"' :: s.flatMap escapeChar ++ ['"']

namespace Json

mutual

def write : Json → Text
  | null => "null".toList
  | bool b => if b then "true".toList else "false".toList
  | number n => n.text
  | string s => quote s
  | array items => '[' :: writeItems items ++ [']']
  | object fields => '\x7b' :: writeFields fields ++ ['\x7d']

def writeItems : List Json → Text
  | [] => []
  | [v] => v.write
  | v :: w :: vs => v.write ++ ',' :: writeItems (w :: vs)

def writeFields : List (Text × Json) → Text
  | [] => []
  | [f] => writeField f
  | f :: g :: fs => writeField f ++ ',' :: writeFields (g :: fs)

def writeField : Text × Json → Text
  | (key, v) => quote key ++ ':' :: v.write

end

end Json

def Printable (s : Text) : Prop := ∀ c ∈ s, 32 ≤ c.toNat

instance : DecidablePred Printable := fun s => inferInstanceAs (Decidable (∀ c ∈ s, 32 ≤ c.toNat))

@[simp] theorem printable_nil : Printable [] := by simp [Printable]

@[simp] theorem printable_cons (c : Char) (s : Text) :
    Printable (c :: s) ↔ 32 ≤ c.toNat ∧ Printable s := by simp [Printable]

@[simp] theorem printable_append (s t : Text) :
    Printable (s ++ t) ↔ Printable s ∧ Printable t := by
  simp [Printable, or_imp, forall_and]

theorem Printable.newline_notMem {s : Text} (h : Printable s) : '\n' ∉ s := by
  intro hmem
  have hle := h '\n' hmem
  simp at hle

theorem printable_digitChar : ∀ n < 16, 32 ≤ (Nat.digitChar n).toNat := by decide

theorem printable_escapeChar (c : Char) : Printable (escapeChar c) := by
  unfold escapeChar
  by_cases hlow : c.toNat < 32
  · have hhigh := printable_digitChar (c.toNat / 16) (by omega)
    have hdigit := printable_digitChar (c.toNat % 16) (by omega)
    split_ifs <;> simp [hhigh, hdigit]
  · split_ifs <;> simp
    omega

theorem printable_quote (s : Text) : Printable (quote s) := by
  have hmem : Printable (s.flatMap escapeChar) := by
    intro d hd
    obtain ⟨c, -, hd⟩ := List.mem_flatMap.mp hd
    exact printable_escapeChar c d hd
  simp [quote, hmem]

theorem Number.printable (n : Number) : Printable n.text := by
  have hall : ∀ c ∈ "0123456789+-.eE".toList, 32 ≤ c.toNat := by decide
  intro c hc
  exact hall c (n.digits c hc)

mutual

/-- By induction on the value: each part of the text is one of its tokens or the text of a
smaller value. -/
theorem printable_write : ∀ v : Json, Printable v.write
  | .null => by decide
  | .bool true => by decide
  | .bool false => by decide
  | .number n => n.printable
  | .string s => printable_quote s
  | .array items => by
    have hitems := printable_writeItems items
    simp [Json.write, hitems]
  | .object fields => by
    have hfields := printable_writeFields fields
    simp [Json.write, hfields]

theorem printable_writeItems : ∀ vs : List Json, Printable (Json.writeItems vs)
  | [] => printable_nil
  | [v] => printable_write v
  | v :: w :: vs => by
    have hv := printable_write v
    have hvs := printable_writeItems (w :: vs)
    simp [Json.writeItems, hv, hvs]

theorem printable_writeFields : ∀ fs : List (Text × Json), Printable (Json.writeFields fs)
  | [] => printable_nil
  | [f] => printable_writeField f
  | f :: g :: fs => by
    have hf := printable_writeField f
    have hfs := printable_writeFields (g :: fs)
    simp [Json.writeFields, hf, hfs]

theorem printable_writeField : ∀ f : Text × Json, Printable (Json.writeField f)
  | (key, v) => by
    have hkey := printable_quote key
    have hv := printable_write v
    simp [Json.writeField, hkey, hv]

end

/-- The text of a value is a single line. -/
theorem newline_notMem_write (v : Json) : '\n' ∉ v.write := (printable_write v).newline_notMem

example : (Json.object [("a".toList, .array [.null, .string ['\n']])]).write =
    "\x7b\"a\":[null,\"\\n\"]\x7d".toList := by decide +kernel

end Hermod.JsonText
