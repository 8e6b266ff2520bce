import SignalFlow.Json.Fields

/-!
What is known of the market at one moment: for each symbol the latest price, the latest volume and
other numbers.
-/

namespace SignalFlow

structure MarketTick where
  price : Option Float := none
  volume : Option Float := none
  fields : Dict Float := ∅

namespace MarketTick

-- A tick from loose numbers. The price is the field `price`, or else `close`.
def ofFields (fields : Dict Float) : MarketTick :=
  let price := (fields.get? "price").or (fields.get? "close")
  let rest :=
    if fields.contains "price" then fields.erase "price" else fields.erase "close"
  { price, volume := rest.get? "volume", fields := rest.erase "volume" }

def ofDocument? (d : Document) : Option MarketTick := do
  let f ← d.fields? ["price", "volume", "fields"]
  some {
    price := ← f.nullable "price" Document.float?
    volume := ← f.nullable "volume" Document.float?
    fields := ← f.withDefault "fields" ∅ (Document.dict? Document.float?) }

end MarketTick

-- The latest tick of every symbol that there is one for.
abbrev Snapshot := Dict MarketTick

end SignalFlow
