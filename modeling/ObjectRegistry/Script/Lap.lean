namespace ObjectRegistry.Script

structure Lap where
  index : Nat
  count : Nat

def Lap.all (count : Nat) : List Lap := (List.range count).map fun index => { index, count }

/-- The text with the placeholders `i`, `j` and `r` in braces replaced by the number of the lap,
the number of the next one, and the number of laps that are still to come. -/
def Lap.fill (lap : Lap) (s : String) : String :=
  ((s.replace "\x7bi\x7d" (toString lap.index)).replace "\x7bj\x7d"
    (toString (lap.index + 1))).replace "\x7br\x7d" (toString (lap.count - 1 - lap.index))

end ObjectRegistry.Script
