import BasicOS.Word

/-! The error numbers of `status.h`. Functions return them negated. -/
namespace BasicOS

abbrev eio : Int := 1
abbrev einvarg : Int := 2
abbrev enomem : Int := 3
abbrev ebadpath : Int := 4
abbrev efsnotsupported : Int := 5
abbrev erdonly : Int := 6
abbrev eunimp : Int := 7
abbrev epidIstkn : Int := 8
abbrev eprocNomem : Int := 9
abbrev einvformat : Int := 10

/-- `IS_ERR` of a pointer or an unsigned number. -/
def isErr (v : Nat) : Prop := s32 v < 0

instance (v : Nat) : Decidable (isErr v) := by unfold isErr; infer_instance

end BasicOS
