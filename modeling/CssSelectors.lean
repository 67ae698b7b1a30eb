import CssSelectors.Grammar.Lemmas
import CssSelectors.Json.Decode
import CssSelectors.Main
import CssSelectors.Workbench
import CssSelectors.Proofs.Selector.Alternatives
import CssSelectors.Proofs.Selector.Depth
import CssSelectors.Proofs.Selector.Enrichment
import CssSelectors.Proofs.Selector.Imbalance
import CssSelectors.Proofs.Selector.Listing
import CssSelectors.Proofs.Selector.Rendering
import CssSelectors.Proofs.Selector.Wrapping
import CssSelectors.Proofs.Token.Bridging
import CssSelectors.Proofs.Token.Finding
import CssSelectors.Proofs.Token.Recapturing
import CssSelectors.Proofs.Token.Refilling
import CssSelectors.Proofs.Token.Tiling
import CssSelectors.Proofs.Grammar.Uncovering
import CssSelectors.Proofs.Token.Uncovering
import CssSelectors.Proofs.Selector.Erasure
import CssSelectors.Proofs.Selector.Uncovering
import CssSelectors.Proofs.Selector.Parts
import CssSelectors.Proofs.Selector.Unlisted
import CssSelectors.Proofs.Specificity.Ranking
import CssSelectors.Proofs.Masking.Balancing
import CssSelectors.Proofs.Masking.Unmasking
import CssSelectors.Proofs.Token.Namespaces
import CssSelectors.Proofs.Token.Escaping
import CssSelectors.Proofs.Token.Values
import CssSelectors.Proofs.Token.Brackets
import CssSelectors.Proofs.Fragment.Spacing
import CssSelectors.Proofs.Token.Leftover
import CssSelectors.Proofs.Token.Spacing
import CssSelectors.Proofs.Selector.Blaming
import CssSelectors.Proofs.Specificity.Adding
import CssSelectors.Proofs.Masking.Flagging
import CssSelectors.Proofs.Masking.Laminar
import CssSelectors.Proofs.Json.Faithful
import CssSelectors.Proofs.Specificity.Fitting
import CssSelectors.Proofs.Masking.Concealing
import CssSelectors.Proofs.Selector.Counting
