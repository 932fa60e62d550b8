import LayeredConfig.Failure
import LayeredConfig.Path
import LayeredConfig.Text.Blank

/-! # Includes

    An include names a file, either by an absolute path or as seen from a
    directory. Blanks around the name do not count. The answer is normalized;
    whether there is such a file is not asked here.
-/

namespace LayeredConfig

/-- The refusal of an include. -/
def IncludeFault.failure (fault : IncludeFault) (target : List Char) : Failure :=
  .invalidInclude (String.ofList target) fault.message

/-- The path that an include names, seen from `base`. -/
def resolveInclude (target : List Char) (base : Option Path) : Except Failure Path :=
  let target := Text.trim target
  if target = [] then .error (IncludeFault.empty.failure target)
  else if target.contains '\x00' then .error (IncludeFault.nul.failure target)
  else if Path.isAbsolute ⟨target⟩ then .ok (Path.normalize ⟨target⟩)
  else
    match base with
    | some dir =>
      if dir.text = [] then .error (IncludeFault.noBase.failure target)
      else .ok (dir.join ⟨target⟩).normalize
    | none => .error (IncludeFault.noBase.failure target)

end LayeredConfig
