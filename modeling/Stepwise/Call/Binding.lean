import Stepwise.Value.Basic

/-!
# Binding values to inputs

When a call starts, the values laid out for it are bound to the aliases of the inputs, in order.  An
input that collects the rest gets the values left over as a list.
-/

namespace Stepwise

/-- Binds every alias to one value. -/
def bindAliases (bindings : Bindings) (aliases : List String) (value : Value) : Bindings :=
  aliases.foldl (fun acc name => acc.insert name value) bindings

/-- Binds values to inputs one after the other; fails at the first input that has none. -/
def bindInputsAfter (bindings : Bindings) :
    List Binder → List Value → Except Exception Bindings
  | [], _ => .ok bindings
  | input :: inputs, values =>
    if input.rest then
      bindInputsAfter (bindAliases bindings input.aliases (.list values)) inputs []
    else
      match values with
      | [] => .error { kind := .missingValue input.primaryName }
      | value :: left => bindInputsAfter (bindAliases bindings input.aliases value) inputs left

/-- The bindings that a call starts with. -/
def bindInputs (inputs : List Binder) (values : List Value) : Except Exception Bindings :=
  bindInputsAfter .empty inputs values

end Stepwise
