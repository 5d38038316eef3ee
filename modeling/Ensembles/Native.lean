import Ensembles.Inquiry

/-!
# Natives

A native is a command or a part that the host supplies. It sees the interpreter only
through requests: a call of it runs a `Program`, a tree whose nodes ask the
interpreter for something and go on with the answer. Every such tree is finite along
every branch, so a call makes finitely many requests whatever it is answered.

There are two requests that programs do not have: to evaluate a script command by command, and
to call a handler that is kept. They take up no level of nesting, so natives that made them of
each other need not come to an end.
-/

namespace Ensembles

/-- What a call of a native does. -/
inductive Program where
  | done (result : Except Error String)
  | eval (script : String) (next : Except Error String → Program)
  | invoke (argv : List String) (next : Except Error String → Program)
  /-- Deletes a command; the answer is whether there was one. -/
  | delete (name : String) (next : Bool → Program)
  | create (path : String) (next : Except Error Handle → Program)
  /-- Asks for what is answered at once. -/
  | ask (q : Inquiry) (next : q.Answer → Program)
  /-- Adds a part that runs `body` and has the tag `tag`. -/
  | addPart (path name : String) (summary tag : Option String) (body : List String → Program)
      (next : Except Error Unit → Program)
  /-- Registers a command that runs `body` and has the tag `tag`. -/
  | register (name : String) (tag : Option String) (body : List String → Program)
      (next : Handle → Program)
deriving Inhabited

/-- A command or part that the host supplies. -/
structure Native where
  /-- What the host is told when the native is released, if it asks for that. -/
  tag : Option String
  /-- The call. The first argument is the name of the command or the full name of the
  part. -/
  run : List String → Program
deriving Inhabited

/-- A native given to an interpreter, which numbers the natives it is given. -/
structure Hosted where
  serial : Nat
  native : Native

end Ensembles
