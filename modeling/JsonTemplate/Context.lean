/-
What free names stand for while an expression is evaluated. An activation is a finite table of
names; a loop binds its variable over it.
-/
import JsonTemplate.Value.Basic

namespace JsonTemplate

/-- The values of names. -/
abbrev Context := String → Option Value

/-- A name hides what it stood for before. -/
def Context.bind (context : Context) (name : String) (value : Value) : Context :=
  fun other => if other = name then some value else context other

structure Activation where
  bindings : Entries Value

namespace Activation

def empty : Activation := ⟨[]⟩

def bind (a : Activation) (name : String) (value : Value) : Activation :=
  ⟨a.bindings.insert name value⟩

def get? (a : Activation) (name : String) : Option Value := a.bindings.get? name

def context (a : Activation) : Context := a.get?

theorem context_bind (a : Activation) (name : String) (value : Value) :
    (a.bind name value).context = a.context.bind name value := by
  funext other
  by_cases h : other = name
  · subst h
    simp [context, get?, bind, Context.bind, Entries.get?_insert_self]
  · simp [context, get?, bind, Context.bind, h, Entries.get?_insert_of_ne]

end Activation

end JsonTemplate
