import Mathlib

/-! The counters of ttest. -/
namespace TcpEyenet.Ttest

/-- `sstats_t`, and what is used of `rstats_t`. -/
@[ext] structure Counters where
  npkts : UInt64
  nbytes : UInt64
  deriving DecidableEq

namespace Counters

instance : Zero Counters := ⟨⟨0, 0⟩⟩

instance : Add Counters := ⟨fun c d => ⟨c.npkts + d.npkts, c.nbytes + d.nbytes⟩⟩

instance : Neg Counters := ⟨fun c => ⟨-c.npkts, -c.nbytes⟩⟩

instance : Sub Counters := ⟨fun c d => ⟨c.npkts - d.npkts, c.nbytes - d.nbytes⟩⟩

open scoped UInt64.CommRing in
/-- The arithmetic of the machine, which wraps around. -/
noncomputable instance : AddCommGroup Counters where
  add_assoc _ _ _ := Counters.ext (add_assoc _ _ _) (add_assoc _ _ _)
  zero_add _ := Counters.ext (zero_add _) (zero_add _)
  add_zero _ := Counters.ext (add_zero _) (add_zero _)
  neg_add_cancel _ := Counters.ext (neg_add_cancel _) (neg_add_cancel _)
  add_comm _ _ := Counters.ext (add_comm _ _) (add_comm _ _)
  sub_eq_add_neg _ _ := Counters.ext (sub_eq_add_neg _ _) (sub_eq_add_neg _ _)
  nsmul := nsmulRec
  zsmul := zsmulRec

end Counters

end TcpEyenet.Ttest
