import Mathlib.Logic.Function.Basic

/-!
A registry of metric families in the manner of Prometheus. A family is a vector of gauges
or of counters, with a series for each list of label values. It is registered under a name
once and for all: a second registration of the name is refused, whatever its kind. The
collector that registered a family goes on to use it by its name.
-/
namespace Hermod.MetricsRegistry

structure SeriesVec (V : Type) where
  labels : List String
  series : List String → Option V

namespace SeriesVec

variable {V : Type}

def new (labels : List String) : SeriesVec V := ⟨labels, fun _ => none⟩

def put (v : SeriesVec V) (values : List String) (x : V) : SeriesVec V :=
  { v with series := Function.update v.series values (some x) }

/-- Change the series of the given label values, which starts from `zero`. Another number
of values than of labels is a panic. -/
def withLabelValues (v : SeriesVec V) (values : List String) (zero : V) (f : V → V) :
    Option (SeriesVec V) :=
  if values.length = v.labels.length then some (v.put values (f ((v.series values).getD zero)))
  else none

@[simp] theorem labels_put (v : SeriesVec V) (values : List String) (x : V) :
    (v.put values x).labels = v.labels := rfl

@[simp] theorem series_put_self (v : SeriesVec V) (values : List String) (x : V) :
    (v.put values x).series values = some x := Function.update_self ..

theorem series_put_of_ne (v : SeriesVec V) {values values' : List String} (h : values' ≠ values)
    (x : V) : (v.put values x).series values' = v.series values' := Function.update_of_ne h _ _

end SeriesVec

/-- Gauges hold floating-point numbers `F`, integer counters wrap at 64 bits. -/
inductive Family (F : Type)
  | gauge (vec : SeriesVec F)
  | counter (vec : SeriesVec UInt64)

variable {F : Type}

namespace Family

def set (values : List String) (x : F) : Family F → Option (Family F)
  | gauge vec => (vec.withLabelValues values x fun _ => x).map gauge
  | counter _ => none

def incBy (values : List String) (n : UInt64) : Family F → Option (Family F)
  | gauge _ => none
  | counter vec => (vec.withLabelValues values 0 (· + n)).map counter

theorem set_gauge {vec : SeriesVec F} {values : List String}
    (h : values.length = vec.labels.length) (x : F) :
    (gauge vec).set values x = some (gauge (vec.put values x)) := by
  rw [set, SeriesVec.withLabelValues, if_pos h]
  rfl

theorem incBy_counter {vec : SeriesVec UInt64} {values : List String}
    (h : values.length = vec.labels.length) (n : UInt64) :
    (counter vec : Family F).incBy values n =
      some (counter (vec.put values ((vec.series values).getD 0 + n))) := by
  rw [incBy, SeriesVec.withLabelValues, if_pos h]
  rfl

end Family

abbrev Registry (F : Type) := String → Option (Family F)

def isNameStart (c : Char) : Bool := c.isAlpha || c == '_' || c == ':'

def isValidMetricName (name : String) : Bool :=
  match name.toList with
  | [] => false
  | c :: cs => isNameStart c && cs.all fun c => isNameStart c || c.isDigit

namespace Registry

/-- A family needs a help text, a valid name, and a name that is not taken. -/
def register (r : Registry F) (name help : String) (family : Family F) : Option (Registry F) :=
  if help = "" ∨ isValidMetricName name = false ∨ (r name).isSome then none
  else some (Function.update r name (some family))

def modify (r : Registry F) (name : String) (f : Family F → Option (Family F)) :
    Option (Registry F) :=
  (r name).bind fun family => (f family).map fun family => Function.update r name (some family)

def gaugeValue (r : Registry F) (name : String) (values : List String) : Option F :=
  match r name with
  | some (.gauge vec) => vec.series values
  | _ => none

def counterValue (r : Registry F) (name : String) (values : List String) : Option UInt64 :=
  match r name with
  | some (.counter vec) => vec.series values
  | _ => none

def Refuses (r : Registry F) (name help : String) : Prop :=
  help = "" ∨ isValidMetricName name = false ∨ ∃ family, r name = some family

variable {r r' : Registry F} {name help : String} {family : Family F}

theorem gaugeValue_of_gauge {vec : SeriesVec F} (h : r name = some (.gauge vec))
    (values : List String) : r.gaugeValue name values = vec.series values := by
  rw [gaugeValue, h]

theorem counterValue_of_counter {vec : SeriesVec UInt64} (h : r name = some (.counter vec))
    (values : List String) : r.counterValue name values = vec.series values := by
  rw [counterValue, h]

/-- Values are read off the family of the name alone. -/
theorem values_congr {r₁ r₂ : Registry F} (h : r₁ name = r₂ name) (values : List String) :
    r₁.gaugeValue name values = r₂.gaugeValue name values ∧
      r₁.counterValue name values = r₂.counterValue name values := by
  simp only [gaugeValue, counterValue, h, and_self]

theorem register_of_refuses (h : r.Refuses name help) : r.register name help family = none := by
  rw [register, if_pos]
  rcases h with h | h | ⟨family, h⟩
  · exact Or.inl h
  · exact Or.inr (Or.inl h)
  · exact Or.inr (Or.inr (by rw [h]; rfl))

theorem register_of_not_refuses (h : ¬ r.Refuses name help) :
    r.register name help family = some (Function.update r name (some family)) := by
  rw [register, if_neg]
  intro h'
  apply h
  rcases h' with h' | h' | h'
  · exact Or.inl h'
  · exact Or.inr (Or.inl h')
  · exact Or.inr (Or.inr (Option.isSome_iff_exists.mp h'))

def Extends (r r' : Registry F) : Prop := ∀ name, (r name).isSome → (r' name).isSome

theorem Refuses.mono (h : r.Refuses name help) (hr : r.Extends r') : r'.Refuses name help := by
  rcases h with h | h | ⟨family, h⟩
  · exact Or.inl h
  · exact Or.inr (Or.inl h)
  · exact Or.inr (Or.inr (Option.isSome_iff_exists.mp (hr name (by rw [h]; rfl))))

theorem modify_of_some {f : Family F → Option (Family F)} {family' : Family F}
    (h : r name = some family) (hf : f family = some family') :
    r.modify name f = some (Function.update r name (some family')) := by
  rw [modify, h, Option.bind_some, hf, Option.map_some]

end Registry

end Hermod.MetricsRegistry
