namespace LayeredConfig

/-!
What is read from the front of a list of symbols.  Each reading takes up at
least one symbol, so readers that follow one another come to an end.
-/

structure Reading (Symbol Result : Type) (input : List Symbol) where
  result : Result
  rest : List Symbol
  shorter : rest.length < input.length

namespace Reading

variable {Symbol Result Other : Type} {input : List Symbol}

theorem tail_shorter (read : Reading Symbol Result input) {symbol : Symbol}
    {after : List Symbol} (follows : read.rest = symbol :: after) :
    after.length < input.length := by
  have shorter := read.shorter
  rw [follows] at shorter
  exact Nat.lt_of_succ_lt shorter

/-- The same reading of a longer input. -/
def widen {longer : List Symbol} (read : Reading Symbol Result input)
    (bound : input.length ≤ longer.length) : Reading Symbol Result longer :=
  ⟨read.result, read.rest, Nat.lt_of_lt_of_le read.shorter bound⟩

def map (f : Result → Other) (read : Reading Symbol Result input) : Reading Symbol Other input :=
  ⟨f read.result, read.rest, read.shorter⟩

end Reading
end LayeredConfig
