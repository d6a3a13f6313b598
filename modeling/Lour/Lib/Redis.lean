import Mathlib.Data.Nat.Notation
import Mathlib.Logic.Function.Basic
/-!
# A key-value store with lists and strings

The commands answer as Redis does, and a key expires by `expire`.  An absent list is
an empty one.
-/

namespace Lour.Lib

structure Redis where
  lists : String → List ByteArray := fun _ => []
  strings : String → Option ByteArray := fun _ => none

namespace Redis

variable (self : Redis) (key : String)

def rpush (value : ByteArray) : Redis :=
  { self with lists := Function.update self.lists key (self.lists key ++ [value]) }

def llen : ℕ := (self.lists key).length

/-- `LPOP key count`: the items popped, and what is left. -/
def lpop (count : ℕ) : List ByteArray × Redis :=
  ((self.lists key).take count,
    { self with lists := Function.update self.lists key ((self.lists key).drop count) })

/-- `LRANGE key 0 -1`. -/
def lrange : List ByteArray := self.lists key

def get : Option ByteArray := self.strings key

def set (value : ByteArray) : Redis :=
  { self with strings := Function.update self.strings key (some value) }

/-- The string under a key reaches the end of its time to live. -/
def expire : Redis := { self with strings := Function.update self.strings key none }

/-- `DEL key`, whatever the key holds; what Redis does to a key when its time is up. -/
def del : Redis where
  lists := Function.update self.lists key []
  strings := Function.update self.strings key none

@[simp] theorem lists_rpush (value : ByteArray) :
    (self.rpush key value).lists key = self.lists key ++ [value] := Function.update_self ..

@[simp] theorem strings_rpush (value : ByteArray) :
    (self.rpush key value).strings = self.strings := rfl

@[simp] theorem lpop_popped (count : ℕ) : (self.lpop key count).1 = (self.lists key).take count :=
  rfl

@[simp] theorem lists_lpop (count : ℕ) :
    (self.lpop key count).2.lists key = (self.lists key).drop count := Function.update_self ..

@[simp] theorem strings_lpop (count : ℕ) : (self.lpop key count).2.strings = self.strings := rfl

@[simp] theorem lists_set (value : ByteArray) : (self.set key value).lists = self.lists := rfl

@[simp] theorem strings_set (value : ByteArray) :
    (self.set key value).strings key = some value := Function.update_self ..

@[simp] theorem lists_del : (self.del key).lists key = [] := Function.update_self ..

@[simp] theorem strings_del : (self.del key).strings key = none := Function.update_self ..

/-! Each command leaves the other keys as they are. -/

section Frame

variable {self key} {other : String}

theorem lists_rpush_of_ne (h : other ≠ key) (value : ByteArray) :
    (self.rpush key value).lists other = self.lists other := Function.update_of_ne h ..

theorem lists_lpop_of_ne (h : other ≠ key) (count : ℕ) :
    (self.lpop key count).2.lists other = self.lists other := Function.update_of_ne h ..

theorem strings_set_of_ne (h : other ≠ key) (value : ByteArray) :
    (self.set key value).strings other = self.strings other := Function.update_of_ne h ..

theorem lists_del_of_ne (h : other ≠ key) : (self.del key).lists other = self.lists other :=
  Function.update_of_ne h ..

theorem strings_del_of_ne (h : other ≠ key) :
    (self.del key).strings other = self.strings other := Function.update_of_ne h ..

end Frame

/-- What is found after a write was written by it or there before. -/
theorem get_set_eq_some {value raw : ByteArray} {other : String}
    (h : (self.set key value).get other = some raw) :
    other = key ∧ raw = value ∨ self.get other = some raw := by
  have hfound : Function.update self.strings key (some value) other = some raw := h
  by_cases hkey : other = key
  · rw [hkey, Function.update_self, Option.some.injEq] at hfound
    exact .inl ⟨hkey, hfound.symm⟩
  · rw [Function.update_of_ne hkey] at hfound
    exact .inr hfound

theorem get_expire_eq_some {raw : ByteArray} {other : String}
    (h : (self.expire key).get other = some raw) : self.get other = some raw := by
  have hfound : Function.update self.strings key none other = some raw := h
  by_cases hkey : other = key
  · rw [hkey, Function.update_self] at hfound
    cases hfound
  · rwa [Function.update_of_ne hkey] at hfound

end Redis

end Lour.Lib
