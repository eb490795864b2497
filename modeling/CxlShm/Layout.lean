import Mathlib.Tactic.Ring
import Mathlib.Tactic.NormNum

/-! # Layout — constants of the shared area and the packed words

The macros of `cxlmalloc-types.h`, the packing functions of `cxlmalloc-internal.h` and the address
arithmetic from a block to its page and segment. Machine words are `Nat` with the wrap written out
where the source can overflow.
-/

namespace CxlShm

/-! ## §1 — layout macros -/

def pageSize : Nat := 2 ^ 16
def segmentSize : Nat := 2 ^ 26
def pagesPerSegment : Nat := 1024
def eraArrayStart : Nat := 2 ^ 22
def threadLocalVecStart : Nat := 2 ^ 23
def hashTableStart : Nat := 2 ^ 26
def hashTableSize : Nat := 2 ^ 20
def segmentsAreaStart : Nat := 2 ^ 27
def cxlBinSize : Nat := 66
def messageBufferSize : Nat := 16
def maxThread : Nat := 1024
def maxSegmentNum : Nat := 4096
def redoCachelineCnt : Nat := 8

/-- `sizeof(cxl_thread_local_state_t)`: 2144 bytes of fields, aligned to 64. -/
def sizeofTls : Nat := 2176
/-- `sizeof(CXLObj)`: the words `next`, `ref_info` and `embedded_ref_cnt`. -/
def sizeofCxlObj : Nat := 24
/-- `sizeof(RootRef)`, aligned to 16. -/
def sizeofRootRef : Nat := 16
/-- `sizeof(cxl_message_queue_t)`: 168 bytes of fields, aligned to 64. -/
def sizeofMessageQueue : Nat := 192

/-! ## §2 — `ref_info`: lcid (16 bits), ref_cnt (16 bits), lenum (32 bits) -/

/-- The fields are added, not masked, in 64-bit arithmetic. -/
def packRefInfo (lcid refCnt lenum : Nat) : Nat :=
  (lcid * 2 ^ 48 + refCnt * 2 ^ 32 + lenum) % 2 ^ 64

def getRefCntFromInfo (refInfo : Nat) : Nat := refInfo / 2 ^ 32 % 2 ^ 16
def getLenumFromInfo (refInfo : Nat) : Nat := refInfo % 2 ^ 32
def getLcidFromInfo (refInfo : Nat) : Nat := refInfo / 2 ^ 48 % 2 ^ 16

section Packing

variable {lcid refCnt lenum : Nat} (hl : lcid < 2 ^ 16) (hc : refCnt < 2 ^ 16) (he : lenum < 2 ^ 32)
include hl hc he

theorem packRefInfo_eq : packRefInfo lcid refCnt lenum = lcid * 2 ^ 48 + refCnt * 2 ^ 32 + lenum := by
  unfold packRefInfo
  omega

theorem getRefCntFromInfo_pack : getRefCntFromInfo (packRefInfo lcid refCnt lenum) = refCnt := by
  rw [packRefInfo_eq hl hc he]
  unfold getRefCntFromInfo
  omega

theorem getLenumFromInfo_pack : getLenumFromInfo (packRefInfo lcid refCnt lenum) = lenum := by
  rw [packRefInfo_eq hl hc he]
  unfold getLenumFromInfo
  omega

theorem getLcidFromInfo_pack : getLcidFromInfo (packRefInfo lcid refCnt lenum) = lcid := by
  rw [packRefInfo_eq hl hc he]
  unfold getLcidFromInfo
  omega

end Packing

theorem getRefCntFromInfo_lt (refInfo : Nat) : getRefCntFromInfo refInfo < 2 ^ 16 :=
  Nat.mod_lt _ (by norm_num)

@[simp] theorem getRefCntFromInfo_zero : getRefCntFromInfo 0 = 0 := rfl
@[simp] theorem getLenumFromInfo_zero : getLenumFromInfo 0 = 0 := rfl
@[simp] theorem getLcidFromInfo_zero : getLcidFromInfo 0 = 0 := rfl

/-- **A 16-bit value carries no count.** The count field sits above bit 32, so it reads 0 off any
value of 16 bits. -/
theorem getRefCntFromInfo_of_lt {x : Nat} (h : x < 2 ^ 16) : getRefCntFromInfo x = 0 := by
  unfold getRefCntFromInfo
  omega

/-! ## §3 — from a block to its page and segment -/

/-- `(get_offset_for_data(start, cxl_ptr_segment(p)) - SEGMENTS_AREA_START) / SEGMENT_SIZE`. -/
def segmentIdx (offset : Nat) : Nat :=
  (offset / segmentSize * segmentSize - segmentsAreaStart) / segmentSize

end CxlShm
