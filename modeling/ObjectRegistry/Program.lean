import ObjectRegistry.Answer

namespace ObjectRegistry

/-- Client code, which keeps a memory of type `σ` to itself and speaks to the registry in the
language `ρ`. A callback that panics on the client's behalf is told to it as an answer. -/
inductive Program (σ ρ α : Type) where
  | done (result : α)
  | panic (p : Panic)
  /-- Change the memory, and go on knowing what it was before. -/
  | access (change : σ → σ) (next : σ → Program σ ρ α)
  | call (request : ρ) (next : Answer → Program σ ρ α)

namespace Program

variable {σ ρ α β : Type}

def bind (program : Program σ ρ α) (f : α → Program σ ρ β) : Program σ ρ β :=
  match program with
  | done result => f result
  | panic p => .panic p
  | access change next => .access change fun m => (next m).bind f
  | call request next => .call request fun a => (next a).bind f

instance : Monad (Program σ ρ) where
  pure := done
  bind := bind

def ask (request : ρ) : Program σ ρ Answer := .call request .done

def modify (change : σ → σ) : Program σ ρ Unit := .access change fun _ => .done ()

def get : Program σ ρ σ := .access id .done

def takeThen (view : σ → α) (change : σ → σ) : Program σ ρ α :=
  .access change fun m => .done (view m)

def require (request : ρ) : Program σ ρ Answer :=
  .call request fun
    | .made (.error fault) | .settled (.error fault) => .panic ⟨some fault.describe⟩
    | .panicked p => .panic p
    | a => .done a

end Program

end ObjectRegistry
