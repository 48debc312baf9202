/-!
# Causes with a trail of contexts

An error is a cause together with the contexts in which it arose, the outermost first. Its message
shows the contexts and then the cause, divided by colons.

* `Traced`: a cause with its trail.
* `inContext`: runs an action and puts a context in front of the trail of its error.
-/

namespace FunRiscv

/-- A cause with the contexts in which it arose, the outermost first. -/
structure Traced (ε : Type) where
  trail : List String
  cause : ε
deriving Inhabited

namespace Traced

variable {ε : Type}

/-- A cause with no context. -/
def ofCause (cause : ε) : Traced ε := ⟨[], cause⟩

/-- Puts a context in front of the trail. -/
def within (label : String) (e : Traced ε) : Traced ε := ⟨label :: e.trail, e.cause⟩

/-- The contexts and the cause, divided by colons. -/
def message (render : ε → String) (e : Traced ε) : String :=
  String.intercalate ": " (e.trail ++ [render e.cause])

end Traced

/-- Runs an action, putting a context in front of the trail of its error. -/
@[inline]
def inContext {ε α : Type} {m : Type → Type} [MonadExcept (Traced ε) m] (label : String)
    (act : m α) : m α :=
  tryCatch act fun e => throw (e.within label)

/-- Fails with a cause. -/
@[inline]
def failWith {ε α : Type} {m : Type → Type} [MonadExcept (Traced ε) m] (cause : ε) : m α :=
  throw (Traced.ofCause cause)

end FunRiscv
