import Xv6.Bio.Machine

/-!
# What the buffer cache is for: a plain block store

A `Store` has the contents of every block and, for each block, the process that holds it. It is
the specification the cache is compared with: only a free block can be taken, its holder sees the
present contents, and only the holder may store into it or give it back.
-/

namespace Xv6.Bio

open Lib

variable {Pid : Type}

/-- Block contents and present holders, by device and block number. -/
structure Store (Pid : Type) where
  content : ℕ → ℕ → Bytes
  holder : ℕ → ℕ → Option Pid

namespace Store

def put (st : Store Pid) (dev b : ℕ) (d : Bytes) : Store Pid :=
  { st with content := Function.update st.content dev (Function.update (st.content dev) b d) }

def setHolder (st : Store Pid) (dev b : ℕ) (p : Option Pid) : Store Pid :=
  { st with holder := Function.update st.holder dev (Function.update (st.holder dev) b p) }

/-- The effect of one event on the store, where the event is one the store permits. -/
inductive Step : Store Pid → Ev Pid → Store Pid → Prop where
  | took {st : Store Pid} {p : Pid} {dev b : ℕ} (free : st.holder dev b = none) :
      Step st (.took p dev b) (st.setHolder dev b (some p))
  | got {st : Store Pid} {p : Pid} {dev b : ℕ} (held : st.holder dev b = some p) :
      Step st (.got p dev b (st.content dev b)) st
  | stored {st : Store Pid} {p : Pid} {dev b : ℕ} {d : Bytes} (held : st.holder dev b = some p) :
      Step st (.stored p dev b d) (st.put dev b d)
  | logged {st : Store Pid} {p : Pid} {op dev b : ℕ} {d : Bytes}
      (held : st.holder dev b = some p) : Step st (.logged p op dev b d) (st.put dev b d)
  | released {st : Store Pid} {p : Pid} {dev b : ℕ} (held : st.holder dev b = some p) :
      Step st (.released p dev b) (st.setHolder dev b none)
  | began {st : Store Pid} {p : Pid} {op : ℕ} : Step st (.began p op) st
  | ended {st : Store Pid} {p : Pid} {op : ℕ} {last : Bool} : Step st (.ended p op last) st
  | recovered {st : Store Pid} : Step st .recovered st

/-- A history (newest event first) the store permits from the initial contents `disk`, with the
store it leaves. -/
inductive Run (disk : ℕ → ℕ → Bytes) : List (Ev Pid) → Store Pid → Prop where
  | nil : Run disk [] ⟨disk, fun _ _ => none⟩
  | cons {h : List (Ev Pid)} {e : Ev Pid} {st st' : Store Pid} (run : Run disk h st)
      (step : Step st e st') : Run disk (e :: h) st'

variable {st : Store Pid} {dev b dev' b' : ℕ} {d : Bytes} {q : Option Pid}

@[simp] theorem put_content : (st.put dev b d).content dev = Function.update (st.content dev) b d := by
  simp [put]

theorem put_content_self : (st.put dev b d).content dev b = d := by
  simp [put]

theorem put_content_of_ne (h : dev' = dev → b' ≠ b) : (st.put dev b d).content dev' b' = st.content dev' b' := by
  rcases eq_or_ne dev' dev with rfl | hd
  · simp [put, h rfl]
  · simp [put, hd]

theorem setHolder_holder_self : (st.setHolder dev b q).holder dev b = q := by
  simp [setHolder]

theorem setHolder_holder_of_ne (h : dev' = dev → b' ≠ b) :
    (st.setHolder dev b q).holder dev' b' = st.holder dev' b' := by
  rcases eq_or_ne dev' dev with rfl | hd
  · simp [setHolder, h rfl]
  · simp [setHolder, hd]

end Store

end Xv6.Bio
