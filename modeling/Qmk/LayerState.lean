import Qmk.Sweep

/-! # Layer states

The words of `action_layer.c` in which bit `k` says whether layer `k` is on. A
`layer_state_t` has 8, 16 or 32 bits; a layer beyond the last bit has an empty
mask. The hooks `layer_state_set_kb` and `layer_state_set_user` keep the state.
-/

namespace Qmk

variable {w : ℕ}

section LayerState

def layerOn (layer : ℕ) (state : BitVec w) : BitVec w := state ||| bitMask w layer

def layerOff (layer : ℕ) (state : BitVec w) : BitVec w := state &&& ~~~bitMask w layer

def layerInvert (layer : ℕ) (state : BitVec w) : BitVec w := state ^^^ bitMask w layer

def layerMove (layer : ℕ) (_state : BitVec w) : BitVec w := bitMask w layer

/-- `biton`, `biton16` and `biton32`: the highest bit of a word of `2 ^ n` bits that is set, or `0`
if none is. -/
def biton : ℕ → ℕ → ℕ
  | 0, _ => 0
  | n + 1, bits =>
    if bits >>> 2 ^ n ≠ 0 then biton n (bits >>> 2 ^ n) + 2 ^ n else biton n bits

def getHighestLayer (state : BitVec w) : ℕ := biton w.log2 state.toNat

end LayerState

section Bits

theorem getLsbD_layerMask (layer k : ℕ) :
    (bitMask w layer).getLsbD k = decide (k = layer ∧ k < w) := by
  by_cases hw : layer < w
  · rw [getLsbD_bitMask hw]
    grind
  · rw [bitMask, BitVec.shiftLeft_eq_zero (by omega), BitVec.getLsbD_zero]
    grind

variable (layer : ℕ) (state : BitVec w) (k : ℕ)

theorem getLsbD_layerOn : (layerOn layer state).getLsbD k =
    (state.getLsbD k || decide (k = layer ∧ k < w)) := by
  rw [layerOn, BitVec.getLsbD_or, getLsbD_layerMask]

theorem getLsbD_layerOff : (layerOff layer state).getLsbD k =
    (state.getLsbD k && decide (k ≠ layer)) := by
  rw [layerOff, BitVec.getLsbD_and, BitVec.getLsbD_not, getLsbD_layerMask]
  by_cases hk : k < w
  · simp [hk]
  · simp [BitVec.getLsbD_of_ge state k (by omega)]

theorem getLsbD_layerInvert : (layerInvert layer state).getLsbD k =
    (state.getLsbD k ^^ decide (k = layer ∧ k < w)) := by
  rw [layerInvert, BitVec.getLsbD_xor, getLsbD_layerMask]

end Bits

end Qmk
