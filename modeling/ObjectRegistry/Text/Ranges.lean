namespace ObjectRegistry.Text

/-- First and last code point of each range. The ranges stand in ascending order and lie apart. All
tables of character properties are those of Unicode 17.0. -/
abbrev Ranges := List (Nat × Nat)

def Ranges.has (ranges : Ranges) (c : Char) : Bool :=
  (ranges.find? fun (_, last) => c.toNat ≤ last).any fun (first, _) => first ≤ c.toNat

end ObjectRegistry.Text
