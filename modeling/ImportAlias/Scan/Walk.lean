import ImportAlias.Tree.Listing

/-!
# Walking a directory

The files and links below a directory, depth first and in the order of the
names. What is to be left out is left out with everything below it; links are
not followed; a directory that cannot be listed or reached is passed over.
-/

namespace ImportAlias.Listing

/-- The names that lead from the start of a walk to each file and link of a listing
that is not left out. `here` leads to the directory with this listing, `enter`
says whether the directory lets anyone in, and `skip` decides, from the names that
lead to an entry and from whether it is a directory, what is left out. -/
def walk (skip : List Name → Bool → Bool) :
    Listing → (enter : Bool) → (here : List Name) → List (List Name)
  | .done, _, _ => []
  | .leaf n _ rest, enter, here =>
    (if skip (here ++ [n]) false then [] else [here ++ [n]]) ++ walk skip rest enter here
  | .dir n mode inside rest, enter, here =>
    (if skip (here ++ [n]) true || !enter || !mode.read then []
      else walk skip inside mode.enter (here ++ [n])) ++ walk skip rest enter here

end ImportAlias.Listing
