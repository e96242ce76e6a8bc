/-!
# Environments

An environment is a handle to a frame of variables, together with the frames around it, nearest
first; the last one is the root frame, which holds the builtins.  The frames themselves are kept
in the store.  What an environment sees never changes, only what its frames bind.

A pipe mode decides how the chains run in an environment are evaluated.
-/

namespace PipeLang

/-- A frame of variables in the store. -/
structure FrameId where
  index : Nat
deriving DecidableEq, Inhabited

/-- How pipe chains are evaluated. -/
inductive PipeMode where
  /-- As each operator asks. -/
  | auto
  /-- Always step by step. -/
  | eager
  /-- Always on demand. -/
  | lazy
deriving DecidableEq

/-- Whether a chain is evaluated on demand, given what its operator asks for. -/
def PipeMode.isLazy (requested : Bool) : PipeMode → Bool
  | auto => requested
  | eager => false
  | lazy => true

/-- A frame, the frames around it, and the mode of the chains run in it. -/
structure Env where
  /-- Where definitions go. -/
  own : FrameId
  /-- The frames around it, nearest first. -/
  outer : List FrameId
  mode : PipeMode
deriving DecidableEq

namespace Env

/-- All frames that the environment sees, nearest first. -/
def visible (env : Env) : List FrameId := env.own :: env.outer

/-- The environment of the frame around this one. -/
def parent? (env : Env) : Option Env :=
  match env.outer with
  | [] => none
  | around :: rest => some ⟨around, rest, env.mode⟩

/-- The outermost frame. -/
def rootFrame (env : Env) : FrameId := env.visible.getLast (by simp [visible])

/-- The environment of the outermost frame. -/
def root (env : Env) : Env := ⟨env.rootFrame, [], env.mode⟩

/-- How many frames lie around this one. -/
def depth (env : Env) : Nat := env.outer.length

/-- The environment of a frame within this one. -/
def within (frame : FrameId) (env : Env) : Env := ⟨frame, env.visible, env.mode⟩

@[simp] theorem visible_within (frame : FrameId) (env : Env) :
    (env.within frame).visible = frame :: env.visible := rfl

@[simp] theorem rootFrame_within (frame : FrameId) (env : Env) :
    (env.within frame).rootFrame = env.rootFrame := by
  simp [rootFrame, visible, within]

@[simp] theorem parent?_within (frame : FrameId) (env : Env) :
    (env.within frame).parent? = some env := rfl

end Env

end PipeLang
